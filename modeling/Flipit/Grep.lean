import Flipit.FileTools
import Flipit.Lines

/- The user program `grep`, over the calls of `FileService`.

   `do_one_file` reads a file through a buffer of 1024 bytes: it searches the lines that
   end in the buffer, moves what is left of the last one down with `strcpy` and reads on
   behind it; a line that fills the buffer is searched in pieces. Each pass over the
   buffer is `searchLines`, and `searchLines_spec` is what carries the proof: the buffer
   holds the current line and a part of the file, and afterwards the pieces that ended
   have been reported and the buffer holds the current line again.

   `strcpy` stops at a zero byte, so what is moved of a line with one in it shows the
   same string, and behind it whatever the buffer held (`Alike`). The buffer is not
   initialised: the byte behind its 1024, where the end of a full buffer is looked up,
   must not be a newline, or a full buffer is taken for a line.

   A read goes on behind what was moved down, at any offset of the file, so it can cross
   the end of a block, and the file's blocks have to lie in order (`Fs.InOrder`).

   Correspondence:
     `ece391_strncmp`, `ece391_strcpy`      ↔ `ece391Strncmp`, `strcpyDown`
     `do_one_file`                          ↔ `doOneFile`; its loops `fileLoop`, `searchLines`
     `main` of `ece391grep.c`               ↔ `grep`, its loop `grepLoop` -/
namespace Flipit
open Machine Bytes Lines Programs Programs.Program

/-- The memory from index `k` on. -/
def onwards (m : Memory) (k : Nat) : Memory := fun j => m (k + j)

/-- `ece391_strncmp`: the difference at the first position below `n` where the strings differ or
the first one ends. -/
def ece391Strncmp (s1 s2 : Memory) (n : Nat) : Int :=
  match (List.range n).find? fun i => s1 i != s2 i || s1 i == 0 with
  | some i => ((s1 i).toNat : Int) - (s2 i).toNat
  | none => 0

/-- `ece391_strcpy (data, data + k)` from index `j` on, with room for `n` bytes. -/
def strcpyDown (k : Nat) : Nat → Nat → Memory → Memory
  | 0, _, m => m
  | n + 1, j, m =>
    let c := m (k + j)
    let m := Function.update m j c
    if c = 0 then m else strcpyDown k n (j + 1) m

/-- `line_end`: the first newline from `line_start` on, or `last`. -/
def lineEnd (data : Memory) (lineStart last : Nat) : Nat :=
  lineStart + strcspn (onwards data lineStart) (last - lineStart)
where
  /-- The index of the first newline below `bound`, or `bound`. -/
  strcspn (m : Memory) (bound : Nat) : Nat := ((List.range bound).find? fun j => m j == 0x0A).getD bound

/-- The loop over `check`. -/
def hasMatch (s : List UInt8) (data : Memory) (lineStart lineEnd : Nat) : Bool :=
  (List.range (lineEnd - lineStart)).any fun j =>
    cstr s 0 == data (lineStart + j) && ece391Strncmp (onwards data (lineStart + j)) (cstr s) s.length == 0

/-- The four texts of a hit. -/
def report (fname line : List UInt8) : Program Call Answer Unit := do
  fdputs 1 fname
  fdputs 1 (ascii ":")
  fdputs 1 line
  fdputs 1 (ascii "\n")

/-- The search of one line. -/
def tell (s fname : List UInt8) (data : Memory) (lineStart lineEnd : Nat) : Program Call Answer Unit :=
  if hasMatch s data lineStart lineEnd then report fname (stringAt (onwards data lineStart) 1025) else pure ()

/-- The lines of the buffer from `line_start` on: what is in the buffer afterwards, and `last`. -/
def searchLines (s fname : List UInt8) (cnt : Int) (last : Nat) : Nat → Memory → Nat → Program Call Answer (Memory × Nat)
  | 0, data, _ => return (data, last)
  | n + 1, data, lineStart => do
    let e := lineEnd data lineStart last
    if data e ≠ 0x0A ∧ cnt ≠ 0 ∧ lineStart ≠ 0 then
      -- copy from line_start to last down to 0 and fix last
      return (strcpyDown lineStart 1025 0 (Function.update data e 0), last - lineStart)
    else do
      let data := Function.update data e 0
      tell s fname data lineStart e
      if e + 1 ≥ last then return (data, 0) else searchLines s fname cnt last n data (e + 1)

/-- The loop of `do_one_file`. -/
def fileLoop (fd : Int) (s fname : List UInt8) : Nat → Memory → Nat → UserProgram
  | 0, _, _ => return none
  | fuel + 1, data, last => do
    let r ← call (.read fd (1024 - last))
    let data := overlay data last r.2
    if r.1 = -1 then do
      fdputs 1 (ascii "file read failed\n")
      return some (-1)
    else do
      let last := last + r.1.toNat
      let q ← searchLines s fname r.1 last (last + 1) data 0
      if r.1 = 0 then do
        let c ← call (.close fd)
        if c.1 = -1 then do
          fdputs 1 (ascii "file close failed\n")
          return some (-1)
        else return some 0
      else fileLoop fd s fname fuel q.1 q.2

/-- `do_one_file`, with what `data` holds. -/
def doOneFile (fuel : Nat) (data : Memory) (s fname : List UInt8) : UserProgram := do
  let fd ← call (.openFile fname)
  if fd.1 = -1 then do
    fdputs 1 (ascii "file open failed\n")
    return some (-1)
  else fileLoop fd.1 s fname fuel data 0

/-- The loop of `grep`; `locals n` is what `data` holds in the `n`-th call of `do_one_file`. -/
def grepLoop (fd : Int) (s : List UInt8) (fileFuel : Nat) (locals : Nat → Memory) : Nat → Nat → Memory → UserProgram
  | 0, _, _ => return none
  | fuel + 1, n, buf => do
    let r ← call (.read fd 32)
    let buf := overlay buf 0 r.2
    if r.1 = 0 then return some 0
    else if r.1 = -1 then do
      fdputs 1 (ascii "directory entry read failed\n")
      return some 3
    else if buf 0 = 0x2E then grepLoop fd s fileFuel locals fuel n buf
    else do
      let buf := Function.update buf r.1.toNat 0
      let one ← doOneFile fileFuel (locals n) s (stringAt buf 33)
      match one with
      | none => return none
      | some v => if v ≠ 0 then return some 3 else grepLoop fd s fileFuel locals fuel (n + 1) buf

/-- `grep`. -/
def grep (fuel : Nat) (locals : Nat → Memory) (search buf : Memory) : UserProgram := do
  let r ← call (.getargs 1024)
  let search := overlay search 0 r.2
  if r.1 ≠ 0 then do
    fdputs 1 (ascii "could not read argument\n")
    return some 3
  else do
    let fd ← call (.openFile (ascii "."))
    if fd.1 = -1 then do
      fdputs 1 (ascii "directory open failed\n")
      return some 2
    else grepLoop fd.1 (stringAt search 1024) fuel locals fuel 0 buf

/-! ## The operations on the buffer -/

variable {m data : Memory} {s fname : List UInt8} {k n j last lineStart e : Nat}

theorem segment_getElem? {p q i : Nat} (h : i < q - p) : (Bytes.segment m p q)[i]? = some (m (p + i)) := by
  simp [Bytes.segment, h]

theorem segment_length (m : Memory) (p q : Nat) : (Bytes.segment m p q).length = q - p := by simp [Bytes.segment]

theorem lineEnd_spec (h : lineStart ≤ last) :
    lineStart ≤ lineEnd data lineStart last ∧ lineEnd data lineStart last ≤ last ∧
    (∀ i, lineStart ≤ i → i < lineEnd data lineStart last → data i ≠ 0x0A) ∧
    (lineEnd data lineStart last < last → data (lineEnd data lineStart last) = 0x0A) := by
  unfold lineEnd lineEnd.strcspn
  cases hf : (List.range (last - lineStart)).find? fun j => onwards data lineStart j == 0x0A with
  | none =>
    rw [Option.getD_none]
    refine ⟨by omega, by omega, fun i hi hlt => ?_, fun hlt => by omega⟩
    have hnone := List.find?_range_eq_none.mp hf (i - lineStart) (by omega)
    simpa [onwards, Nat.add_sub_cancel' hi] using hnone
  | some p =>
    rw [Option.getD_some]
    obtain ⟨h0, hp, hlt⟩ := List.find?_range_eq_some.mp hf
    have hp := List.mem_range.mp hp
    refine ⟨by omega, by omega, fun i hi hi' => ?_, fun _ => by simpa [onwards] using h0⟩
    have hnone := hlt (i - lineStart) (by omega)
    simpa [onwards, Nat.add_sub_cancel' hi] using hnone

theorem cstr_ne_zero (h0 : 0 ∉ s) (hj : j < s.length) : cstr s j ≠ 0 := by
  rw [cstr, List.getD_eq_getElem _ _ hj]
  intro h
  exact h0 (h ▸ List.getElem_mem hj)

theorem ece391Strncmp_eq_zero (h0 : 0 ∉ s) :
    ece391Strncmp m (cstr s) s.length = 0 ↔ ∀ i, i < s.length → m i = cstr s i := by
  unfold ece391Strncmp
  cases hf : (List.range s.length).find? fun i => m i != cstr s i || m i == 0 with
  | none =>
    simp only [true_iff]
    intro i hi
    have hnone := List.find?_range_eq_none.mp hf i hi
    simp only [Bool.not_eq_true', Bool.or_eq_false_iff, bne_eq_false_iff_eq] at hnone
    exact hnone.1
  | some p =>
    obtain ⟨hdiff, hp, -⟩ := List.find?_range_eq_some.mp hf
    have hp := List.mem_range.mp hp
    have hne : m p ≠ cstr s p := by
      intro he
      simp [he, cstr_ne_zero h0 hp] at hdiff
    constructor
    · intro h
      dsimp only at h
      exact absurd (UInt8.toNat_inj.mp (by omega)) hne
    · intro h
      exact absurd (h p hp) hne

/-- The search of a line that ends at a zero byte finds the string if it is in the line. -/
theorem hasMatch_iff (h0 : 0 ∉ s) (hne : s ≠ []) (he : data e = 0) (hle : lineStart ≤ e) :
    hasMatch s data lineStart e = true ↔ s <:+: Bytes.segment data lineStart e := by
  have hpos : 0 < s.length := List.length_pos_iff.mpr hne
  have hchars : ∀ j, (∀ i, i < s.length → onwards data (lineStart + j) i = cstr s i) →
      j < e - lineStart → s.length + j ≤ e - lineStart := by
    intro j hall hj
    by_contra hover
    -- the zero byte at the end would be one of the string
    have hzero := hall (e - lineStart - j) (by omega)
    rw [onwards, show lineStart + j + (e - lineStart - j) = e by omega, he] at hzero
    exact cstr_ne_zero h0 (by omega) hzero.symm
  rw [List.infix_iff_getElem?, segment_length]
  simp only [hasMatch, List.any_eq_true, List.mem_range, Bool.and_eq_true, beq_iff_eq, ece391Strncmp_eq_zero h0]
  constructor
  · intro h
    obtain ⟨j, hj, -, hall⟩ := h
    refine ⟨j, hchars j hall hj, fun i hi => ?_⟩
    have hroom := hchars j hall hj
    have hbyte := hall i hi
    rw [cstr, List.getD_eq_getElem _ _ hi] at hbyte
    rw [segment_getElem? (by omega), ← hbyte, onwards, Nat.add_assoc lineStart, Nat.add_comm j]
  · intro h
    obtain ⟨j, hj, hall⟩ := h
    have hbytes : ∀ i, i < s.length → onwards data (lineStart + j) i = cstr s i := by
      intro i hi
      have hbyte := hall i hi
      rw [segment_getElem? (by omega), Option.some.injEq] at hbyte
      rw [cstr, List.getD_eq_getElem _ _ hi, ← hbyte, onwards, Nat.add_assoc lineStart, Nat.add_comm j]
    exact ⟨j, by omega, (hbytes 0 hpos).symm, hbytes⟩

/-- `strcpy` to a lower address moves the bytes up to the first zero byte and that one. -/
theorem strcpyDown_spec {len : Nat} (hk : 0 < k) (hn : len < n) (hne : ∀ i, i < len → m (k + (j + i)) ≠ 0)
    (hzero : m (k + (j + len)) = 0) (a : Nat) :
    strcpyDown k n j m a = if j ≤ a ∧ a ≤ j + len then m (k + a) else m a := by
  induction len generalizing n j m with
  | zero =>
    obtain ⟨n, rfl⟩ := Nat.exists_eq_add_of_lt hn
    simp only [Nat.add_zero] at hzero ⊢
    simp only [strcpyDown, hzero, if_true]
    by_cases ha : a = j
    · subst ha
      rw [Function.update_self, if_pos ⟨le_refl _, le_refl _⟩, hzero]
    · rw [Function.update_of_ne ha, if_neg (by omega)]
  | succ len ih =>
    obtain ⟨n, rfl⟩ := Nat.exists_eq_add_of_lt hn
    have hfirst : m (k + j) ≠ 0 := hne 0 (by omega)
    have hkept : ∀ i, Function.update m j (m (k + j)) (k + (j + 1 + i)) = m (k + (j + (i + 1))) := by
      intro i
      rw [Function.update_of_ne (by omega)]
      congr 1
      omega
    simp only [strcpyDown, if_neg hfirst]
    rw [ih (by omega) (fun i hi => by rw [hkept]; exact hne (i + 1) (by omega)) (by rw [hkept]; exact hzero)]
    by_cases ha : a = j
    · subst ha
      rw [if_neg (by omega), if_pos (by omega), Function.update_self]
    · have hmoved : Function.update m j (m (k + j)) (k + a) = m (k + a) ∨ a < j := by
        by_cases hlt : a < j
        · exact .inr hlt
        · exact .inl (Function.update_of_ne (by omega) ..)
      by_cases hin : j + 1 ≤ a ∧ a ≤ j + 1 + len
      · rw [if_pos hin, if_pos (by omega), hmoved.resolve_right (by omega)]
      · rw [if_neg hin, if_neg (by omega), Function.update_of_ne ha]

/-! ## One pass over the buffer -/

variable {fs : Fs} {d : Desk}

/-- The texts of a hit. -/
def message (fname line : List UInt8) : List UInt8 := fname ++ ascii ":" ++ line ++ ascii "\n"

theorem report_yields (h : d.Standard) (fname line : List UInt8) :
    Yields (Desk.answer fs) printed (report fname line) d (message fname line) () d := by
  have hputs : ∀ s, Yields (Desk.answer fs) printed (fdputs 1 s) d s () d := fdputs_yields h
  have hline := Yields.bind (f := fun _ => fdputs 1 (ascii "\n")) (hputs line) (hputs _)
  have hcolon := Yields.bind (f := fun _ => fdputs 1 line >>= fun _ => fdputs 1 (ascii "\n"))
    (hputs (ascii ":")) hline
  have hall := Yields.bind
    (f := fun _ => fdputs 1 (ascii ":") >>= fun _ => fdputs 1 line >>= fun _ => fdputs 1 (ascii "\n"))
    (hputs fname) hcolon
  rw [message, List.append_assoc, List.append_assoc]
  exact hall

theorem tell_yields (h : d.Standard) (h0 : 0 ∉ s) (hne : s ≠ []) (he : data e = 0) (hle : lineStart ≤ e) (hlt : e < 1025) :
    Yields (Desk.answer fs) printed (tell s fname data lineStart e) d
      (if s <:+: Bytes.segment data lineStart e then
        message fname (upToNul (Bytes.segment data lineStart e)) else []) () d := by
  have hmatch := hasMatch_iff h0 hne he hle
  rw [tell]
  by_cases hs : s <:+: Bytes.segment data lineStart e
  · have hend : onwards data lineStart (e - lineStart) = 0 := by
      rw [onwards, Nat.add_sub_cancel' hle, he]
    rw [if_pos (hmatch.mpr hs), if_pos hs, stringAt_upToNul hend (by omega)]
    exact report_yields h _ _
  · rw [if_neg fun hm => hs (hmatch.mp hm), if_neg hs]
    exact Yields.done

theorem segment_split {p q r : Nat} (h : p ≤ q) (h' : q ≤ r) :
    Bytes.segment m p r = Bytes.segment m p q ++ Bytes.segment m q r := by
  rw [Bytes.segment, show r - p = q - p + (r - q) by omega, List.range_add, List.map_append, List.map_map]
  congr 1
  apply List.map_congr_left
  intro i _
  rw [Function.comp_apply, show p + (q - p + i) = q + i by omega]

theorem segment_cons {p r : Nat} (h : p < r) : Bytes.segment m p r = m p :: Bytes.segment m (p + 1) r := by
  rw [segment_split (Nat.le_succ p) h]
  simp [Bytes.segment]

theorem segment_congr {m' : Memory} {p q : Nat} (h : ∀ i, p ≤ i → i < q → m' i = m i) :
    Bytes.segment m' p q = Bytes.segment m p q := by
  apply List.map_congr_left
  intro i hi
  have hlt := List.mem_range.mp hi
  exact h _ (by omega) (by omega)

theorem mem_segment {p q : Nat} {c : UInt8} (h : c ∈ Bytes.segment m p q) : ∃ i, p ≤ i ∧ i < q ∧ m i = c := by
  obtain ⟨i, hi, rfl⟩ := List.mem_map.mp h
  have hlt := List.mem_range.mp hi
  exact ⟨p + i, by omega, by omega, rfl⟩

theorem split_at_first {P U L T : List UInt8} {c : UInt8} (h : P ++ U = L ++ c :: T) (hP : c ∉ P) :
    ∃ U1, L = P ++ U1 ∧ U = U1 ++ c :: T := by
  rcases List.append_eq_append_iff.mp h with ⟨U1, hL, hU⟩ | ⟨P1, hP1, hT⟩
  · exact ⟨U1, hL, hU⟩
  · cases P1 with
    | nil =>
      refine ⟨[], ?_, ?_⟩
      · rw [List.append_nil] at hP1 ⊢
        exact hP1.symm
      · exact hT.symm
    | cons x P1 =>
      rw [List.cons_append, List.cons.injEq] at hT
      exact absurd (by rw [hP1, hT.1]; simp) hP

/-- The buffer between two passes: the line so far and what the buffer shows of it. -/
structure Carried (data : Memory) (last : Nat) (cur : List UInt8) : Prop where
  alike : Alike cur (prefixOf data last)
  line : 0x0A ∉ cur
  buffer : 0x0A ∉ prefixOf data last
  room : last < 1024
  behind : data 1024 ≠ 0x0A

theorem carried_nil (h : data 1024 ≠ 0x0A) : Carried data 0 [] :=
  ⟨Alike.refl [], by simp, by simp [prefixOf], by omega, h⟩

theorem carried_moved {cur : List UInt8} (hk : 0 < lineStart) (hle : lineStart ≤ last) (hlast : last ≤ 1024)
    (hcur : Alike cur (Bytes.segment data lineStart last)) (hline : 0x0A ∉ cur)
    (hdone : ∀ i, i < last → data i ≠ 0x0A) (h1024 : data 1024 ≠ 0x0A) :
    Carried (strcpyDown lineStart 1025 0 (Function.update data last 0)) (last - lineStart) cur := by
  have hzero : onwards (Function.update data last 0) lineStart (last - lineStart) = 0 := by
    rw [onwards, Nat.add_sub_cancel' hle, Function.update_self]
  -- the string that is moved
  obtain ⟨hlen, hne, hend⟩ := strlen_spec (onwards (Function.update data last 0) lineStart) (last - lineStart + 1)
  generalize hl : strlen (onwards (Function.update data last 0) lineStart) (last - lineStart + 1) = len at hlen hne hend
  have hend : onwards (Function.update data last 0) lineStart len = 0 := by
    by_cases hlt : len < last - lineStart + 1
    · exact hend hlt
    · obtain rfl : len = last - lineStart + 1 := by omega
      exact absurd hzero (hne _ (by omega))
  have hlen : len ≤ last - lineStart := by
    by_contra hlt
    exact absurd hzero (hne _ (by omega))
  have hmoved : ∀ a, strcpyDown lineStart 1025 0 (Function.update data last 0) a =
      if a ≤ len then Function.update data last 0 (lineStart + a) else Function.update data last 0 a := by
    intro a
    rw [strcpyDown_spec hk (show len < 1025 by omega)
      (fun i hi => by rw [Nat.zero_add]; exact hne i hi) (by rw [Nat.zero_add]; exact hend)]
    simp
  generalize strcpyDown lineStart 1025 0 (Function.update data last 0) = data' at hmoved
  have hbyte : ∀ i, i < last - lineStart → Function.update data last 0 (lineStart + i) = data (lineStart + i) := by
    intro i hi
    exact Function.update_of_ne (by omega) ..
  have hnewline : ∀ i, i < last - lineStart → data' i ≠ 0x0A := by
    intro i hi
    rw [hmoved]
    split
    · rw [hbyte i hi]
      exact hdone _ (by omega)
    · rw [Function.update_of_ne (by omega)]
      exact hdone _ (by omega)
  refine ⟨⟨?_, ?_⟩, hline, ?_, by omega, ?_⟩
  · rw [prefixOf, List.length_map, List.length_range, ← hcur.length, segment_length]
  · rw [← hcur.shown]
    apply upToNul_congr hlen
    · intro i hi hi'
      rw [hmoved, if_pos hi, hbyte i hi']
    · intro hlt
      rw [← hbyte len hlt]
      exact hend
  · intro hmem
    obtain ⟨i, hi, hi'⟩ := List.mem_map.mp hmem
    exact hnewline i (List.mem_range.mp hi) hi'
  · rw [hmoved, if_neg (by omega)]
    by_cases h : 1024 = last
    · rw [← h, Function.update_self]
      decide
    · rw [Function.update_of_ne h]
      exact h1024

/-- A pass from `line_start` on, with the line so far and `u` in the buffer and `v` behind it:
the pieces that end in the buffer are reported, and the rest is carried to the next pass. -/
theorem searchLines_spec (h : d.Standard) (h0 : 0 ∉ s) (hne : s ≠ []) {cnt : Int} {cur cur' u v : List UInt8}
    (hn : last - lineStart < n) (hlast : last ≤ 1024) (hstart : lineStart < last ∨ lineStart = 0)
    (hbuf : Bytes.segment data lineStart last = cur' ++ u) (hlike : Alike cur cur') (hcur : 0x0A ∉ cur)
    (hcur' : 0x0A ∉ cur')
    (hroom : cur.length < 1024) (hdone : ∀ i, i < lineStart → data i ≠ 0x0A) (h1024 : data 1024 ≠ 0x0A)
    (hv : last < 1024 → v = []) (hcnt : cnt = 0 → last < 1024) :
    ∃ data' last' ls rest out,
      Yields (Desk.answer fs) printed (searchLines s fname cnt last n data lineStart) d out (data', last') d ∧
      Reported s (message fname) ls out ∧ pieces 1024 cur (u ++ v) = ls ++ pieces 1024 rest v ∧
      Carried data' last' rest ∧ (cnt = 0 → rest = []) := by
  -- on the lines left in the buffer
  induction n generalizing data lineStart cur cur' u with
  | zero => omega
  | succ n ih =>
    have hle : lineStart ≤ last := by omega
    obtain ⟨hge, hele, hfree, hend⟩ := lineEnd_spec hle
    rw [searchLines]
    generalize lineEnd data lineStart last = e at hge hele hfree hend ⊢
    have hline : Bytes.segment (Function.update data e 0) lineStart e = Bytes.segment data lineStart e := by
      apply segment_congr
      intro i _ hi
      exact Function.update_of_ne (by omega) ..
    have htell : Yields (Desk.answer fs) printed (tell s fname (Function.update data e 0) lineStart e) d _ () d :=
      tell_yields h h0 hne (Function.update_self e 0 data) hge (by omega)
    rw [hline] at htell
    have h1024' : Function.update data e 0 1024 ≠ 0x0A := by
      by_cases he : 1024 = e
      · rw [← he, Function.update_self]
        decide
      · rw [Function.update_of_ne he]
        exact h1024
    by_cases hlt : e < last
    · -- a newline ends the line
      have hnl := hend hlt
      have hsplit : cur' ++ u = Bytes.segment data lineStart e ++ 0x0A :: Bytes.segment data (e + 1) last := by
        rw [← hbuf, segment_split hge hele, segment_cons hlt, hnl]
      obtain ⟨u1, hl, rfl⟩ := split_at_first hsplit hcur'
      have hfree1 : 0x0A ∉ u1 := by
        intro hmem
        obtain ⟨i, hi, hi', hc⟩ := mem_segment (show 0x0A ∈ Bytes.segment data lineStart e by rw [hl]; simp [hmem])
        exact hfree i hi hi' hc
      have hwidth : cur.length + u1.length < 1024 := by
        have hlen := congrArg List.length hl
        rw [segment_length, List.length_append, hlike.length] at hlen
        omega
      have hreported : Reported s (message fname) [cur ++ u1] _ := Reported.alike (hlike.append u1)
      rw [hl] at htell
      dsimp only
      rw [if_neg (by simp [hnl])]
      rw [List.append_assoc, List.cons_append, pieces_newline hfree1 hwidth]
      by_cases hlastline : e + 1 ≥ last
      · have hnil : Bytes.segment data (e + 1) last = [] := by
          rw [Bytes.segment, Nat.sub_eq_zero_of_le hlastline]
          rfl
        refine ⟨Function.update data e 0, 0, [cur ++ u1], [], _, ?_, hreported, ?_, carried_nil h1024', fun _ => rfl⟩
        · rw [if_pos hlastline]
          exact Yields.result htell
        · rw [hnil]
          rfl
      · rw [if_neg hlastline]
        have hbuf' : Bytes.segment (Function.update data e 0) (e + 1) last = [] ++ Bytes.segment data (e + 1) last := by
          apply segment_congr
          intro i hi _
          exact Function.update_of_ne (by omega) ..
        have hdone' : ∀ i, i < e + 1 → Function.update data e 0 i ≠ 0x0A := by
          intro i hi
          by_cases hie : i = e
          · rw [hie, Function.update_self]
            decide
          · rw [Function.update_of_ne hie]
            by_cases hold : i < lineStart
            · exact hdone i hold
            · exact hfree i (by omega) (by omega)
        obtain ⟨data', last', ls, rest, out, hyields, hr, hp, hcarried, hzero⟩ :=
          ih (by omega) (.inl (by omega)) hbuf' (Alike.refl []) (by simp) (by simp) (by simp) hdone' h1024'
        refine ⟨data', last', (cur ++ u1) :: ls, rest, _, Yields.bind htell hyields, ?_, ?_, hcarried, hzero⟩
        · exact hreported.append hr
        · rw [hp]
          rfl
    · -- the buffer ends first
      obtain rfl : e = last := by omega
      have hlike1 : Alike (cur ++ u) (Bytes.segment data lineStart e) := hbuf ▸ hlike.append u
      have hfreeu : 0x0A ∉ u := by
        intro hmem
        obtain ⟨i, hi, hi', hc⟩ := mem_segment (show 0x0A ∈ Bytes.segment data lineStart e by rw [hbuf]; simp [hmem])
        exact hfree i hi hi' hc
      have hfreeall : 0x0A ∉ cur ++ u := by
        rw [List.mem_append, not_or]
        exact ⟨hcur, hfreeu⟩
      have hwidth : cur.length + u.length = e - lineStart := by
        have hlen := hlike1.length
        rw [segment_length, List.length_append] at hlen
        exact hlen.symm
      dsimp only
      by_cases hmove : data e ≠ 0x0A ∧ cnt ≠ 0 ∧ lineStart ≠ 0
      · rw [if_pos hmove]
        obtain ⟨-, hcnt0, hstart0⟩ := hmove
        refine ⟨_, _, [], cur ++ u, [], Yields.done, .nil, ?_, ?_, fun hz => absurd hz hcnt0⟩
        · rw [List.nil_append, pieces_append hfreeu (by omega)]
        · apply carried_moved (by omega) hge hlast hlike1 hfreeall _ h1024
          intro i hi
          by_cases hold : i < lineStart
          · exact hdone i hold
          · exact hfree i (by omega) hi
      · rw [if_neg hmove, if_pos (by omega)]
        have hreported : Reported s (message fname) [cur ++ u] _ := Reported.alike hlike1
        by_cases hempty : cur ++ u = []
        · -- nothing is left
          obtain ⟨rfl, rfl⟩ := List.append_eq_nil_iff.mp hempty
          have hnil : Bytes.segment data lineStart e = [] := List.length_eq_zero_iff.mp hlike1.length
          rw [hnil, if_neg (by simpa using hne)] at htell
          exact ⟨_, 0, [], [], [], Yields.result htell, .nil, rfl, carried_nil h1024', fun _ => rfl⟩
        · refine ⟨_, 0, [cur ++ u], [], _, Yields.result htell, hreported, ?_, carried_nil h1024', fun _ => rfl⟩
          by_cases hfull : cur.length + u.length = 1024
          · rw [pieces_full hfreeu _ hfull]
            · rfl
            · intro hu
              rw [hu, List.length_nil] at hfull
              omega
          · have hshort : e < 1024 := by
              by_contra hlong
              obtain rfl : e = 1024 := by omega
              exact hmove ⟨h1024, by omega, by omega⟩
            rw [hv hshort, List.append_nil, pieces_last hfreeu hempty (by omega)]
            rfl

/-! ## One file -/

variable {inode offset : Nat} {f : FileT}

/-- The blocks of the file lie in order. -/
def Fs.InOrder (fs : Fs) (inode : Nat) : Prop :=
  ∀ b, b + 1 < (fs.lengthInB inode + 4095) / 4096 → fs.dataBlockNumber inode (b + 1) = fs.dataBlockNumber inode b + 1

theorem Fs.InOrder.delivered (h : fs.InOrder inode) {count : Nat} (hlen : offset + count ≤ fs.lengthInB inode) :
    fs.delivered inode offset count = fs.fileBytes inode offset count := by
  apply delivered_eq_iff.mpr
  intro hlt j hj
  have hnext := h (offset / 4096) (by omega)
  congr 1
  simp only [Fs.dataBlock, hnext, w32]
  omega

theorem prefixOf_append {bytes : List UInt8} : prefixOf (overlay data last bytes) (last + bytes.length) =
    prefixOf data last ++ bytes := by
  rw [prefixOf, List.range_add, List.map_append, List.map_map]
  congr 1
  · apply List.map_congr_left
    intro i hi
    have hlt := List.mem_range.mp hi
    exact overlay_outside (by omega)
  · apply List.ext_getElem (by simp)
    intro j hj hj'
    have hbyte := overlay_get (m := data) (i := last) hj'
    rw [List.getD_eq_getElem _ _ hj'] at hbyte
    simpa using hbyte

theorem segment_zero (m : Memory) (n : Nat) : Bytes.segment m 0 n = prefixOf m n := by
  simp [Bytes.segment, prefixOf]

theorem pass_yields (h : d.Standard) (h0 : 0 ∉ s) (hne : s ≠ []) {cur bytes v : List UInt8}
    (hcarried : Carried data last cur) (hroom : last + bytes.length ≤ 1024) (hv : last + bytes.length < 1024 → v = []) :
    ∃ data' last' ls rest out,
      Yields (Desk.answer fs) printed (searchLines s fname (bytes.length : Int) (last + bytes.length)
        (last + bytes.length + 1) (overlay data last bytes) 0) d out (data', last') d ∧
      Reported s (message fname) ls out ∧ pieces 1024 cur (bytes ++ v) = ls ++ pieces 1024 rest v ∧
      Carried data' last' rest ∧ ((bytes.length : Int) = 0 → rest = []) := by
  have hlen := hcarried.alike.length
  rw [prefixOf, List.length_map, List.length_range] at hlen
  have hlast := hcarried.room
  refine searchLines_spec h h0 hne (by omega) hroom (.inr rfl) ?_ hcarried.alike hcarried.line hcarried.buffer (by omega)
    (fun i hi => absurd hi (Nat.not_lt_zero i)) ?_ hv (by omega)
  · rw [segment_zero, prefixOf_append]
  · rw [overlay_outside (by omega)]
    exact hcarried.behind

theorem Desk.Open.close {fd : Fin 8} (h : d.Open fd f) :
    ∃ d', d.answer fs (.close fd.val) = some ((0, []), d') ∧ d'.Standard ∧ (d'.table fd).active = 0 ∧
      ∀ g, g ≠ fd → d'.table g = d.table g := by
  have hge := h.ge
  have hindex : Kernel.fdIndex (fd.val : Int) = fd := by
    apply Fin.ext
    have hval : ((Kernel.fdIndex (fd.val : Int)).val : Int) = fd.val := Kernel.fdIndex_val (by omega)
    omega
  refine ⟨d.onFd fd fun f => { f with active := 0 }, ?_, h.standard.onFd hge _, by simp, fun g hg => d.onFd_ne hg _⟩
  rw [Desk.answer, Desk.close, hindex, if_neg (by omega), h.entry, if_neg (by rw [h.active]; decide)]

/-- What a search of a file leaves: descriptor 3 is free again, and the others are as they were. -/
structure Desk.Back (d d' : Desk) : Prop where
  standard : d'.Standard
  closed : (d'.table 3).active = 0
  others : ∀ g, g ≠ 3 → d'.table g = d.table g

theorem fileLoop_end {fuel : Nat} {d1 : Desk} {cur : List UInt8} (h0 : 0 ∉ s) (hne : s ≠ [])
    (hread : d.answer fs (.read 3 (1024 - last)) = some ((0, []), d1)) (hopen : d1.Open 3 f)
    (hothers : ∀ g, g ≠ 3 → d1.table g = d.table g) (hcarried : Carried data last cur) (hfuel : 0 < fuel) :
    ∃ d' out, Yields (Desk.answer fs) printed (fileLoop 3 s fname fuel data last) d out (some 0) d' ∧
      Reported s (message fname) (pieces 1024 cur []) out ∧ d.Back d' := by
  obtain ⟨fuel, rfl⟩ := Nat.exists_eq_add_of_lt hfuel
  have hlast := hcarried.room
  obtain ⟨data', last', ls, rest, out, hyields, hr, hp, -, hrest⟩ := pass_yields (v := [])
    hopen.standard h0 hne hcarried (by rw [List.length_nil]; omega) (fun _ => rfl)
  obtain ⟨d2, hclose, hstandard, hclosed, hkept⟩ := hopen.close
  rw [hrest rfl] at hp
  have hls : pieces 1024 cur [] = ls := hp.trans (List.append_nil ls)
  refine ⟨d2, out, ?_, hls ▸ hr, hstandard, hclosed, fun g hg => (hkept g hg).trans (hothers g hg)⟩
  rw [Nat.zero_add]
  apply Yields.silent hread rfl
  dsimp only
  rw [if_neg (by decide), ← List.append_nil out]
  apply Yields.bind hyields
  rw [if_pos rfl]
  exact Yields.silent hclose rfl Yields.done

theorem fileLoop_file {fuel : Nat} {cur : List UInt8} (h0 : 0 ∉ s) (hne : s ≠ []) (ho : fs.FileOk inode)
    (horder : fs.InOrder inode) (h : d.Open 3 ⟨some .file, inode, offset, 1⟩) (hoff : offset ≤ fs.lengthInB inode)
    (hcarried : Carried data last cur) (hfuel : fs.lengthInB inode - offset < fuel) :
    ∃ d' out, Yields (Desk.answer fs) printed (fileLoop 3 s fname fuel data last) d out (some 0) d' ∧
      Reported s (message fname) (pieces 1024 cur (fs.fileBytes inode offset (fs.lengthInB inode - offset))) out ∧
      d.Back d' := by
  -- on the turns left
  induction fuel generalizing d offset data last cur with
  | zero => omega
  | succ fuel ih =>
    have hlast := hcarried.room
    have hsize : (1024 - (last : Int)) = ((1024 - last : Nat) : Int) := by omega
    obtain ⟨count, hcount⟩ : ∃ count, count = min (1024 - last) (fs.lengthInB inode - offset) := ⟨_, rfl⟩
    obtain ⟨d1, hread, hopen, hothers⟩ := h.read_file ho hoff (n := 1024 - last) (by omega) hcount
    rw [horder.delivered (by omega)] at hread
    change d.answer fs (.read 3 _) = _ at hread
    rw [← hsize] at hread
    by_cases hend : count = 0
    · have hleft : fs.lengthInB inode - offset = 0 := by omega
      rw [hleft]
      subst hend
      exact fileLoop_end h0 hne hread hopen hothers hcarried (by omega)
    · have hbytes : (fs.fileBytes inode offset count).length = count := by simp
      obtain ⟨data', last', ls, rest, out, hyields, hr, hp, hcarried', -⟩ :=
        pass_yields hopen.standard h0 hne hcarried
          (v := fs.fileBytes inode (offset + count) (fs.lengthInB inode - (offset + count)))
          (show last + (fs.fileBytes inode offset count).length ≤ 1024 by omega)
          (fun hshort => by rw [show fs.lengthInB inode - (offset + count) = 0 by omega]; simp [Fs.fileBytes])
      rw [hbytes] at hyields
      obtain ⟨d2, out', hrest, hr', hback⟩ := ih hopen (by omega) hcarried' (by omega)
      refine ⟨d2, out ++ out', ?_, ?_, hback.standard, hback.closed, fun g hg => (hback.others g hg).trans (hothers g hg)⟩
      · apply Yields.silent hread rfl
        dsimp only
        rw [if_neg (by omega), Int.toNat_natCast]
        apply Yields.bind hyields
        rw [if_neg (by omega)]
        exact hrest
      · rw [show fs.lengthInB inode - offset = count + (fs.lengthInB inode - (offset + count)) by omega, fileBytes_add, hp]
        exact hr.append hr'

/-- A descriptor that is open for the directory, read up to index `i`, and nothing behind it. -/
structure Desk.Grepping (d : Desk) (i : Nat) : Prop where
  dir : d.Open 2 ⟨some .dir, 0, i, 1⟩
  rest : ∀ g : Fin 8, 3 ≤ g.val → (d.table g).active = 0

variable {i : Nat}

theorem Desk.Grepping.back {d' : Desk} (h : d.Grepping i) (hback : d.Back d') : d'.Grepping i := by
  refine ⟨⟨hback.standard, h.dir.ge, ?_, h.dir.active⟩, fun g hg => ?_⟩
  · rw [hback.others 2 (by decide)]
    exact h.dir.entry
  · by_cases h3 : g = 3
    · rw [h3]
      exact hback.closed
    · rw [hback.others g h3]
      exact h.rest g hg

theorem Desk.Grepping.firstInactive (h : d.Grepping i) : Kernel.firstInactive d.table = some 3 := by
  apply firstInactive_of_lt
  · intro g hg
    have hg3 : g = 0 ∨ g = 1 ∨ g = 2 := by omega
    rcases hg3 with rfl | rfl | rfl
    · exact h.dir.standard.stdin
    · exact h.dir.standard.stdout.1
    · rw [h.dir.entry]
  · exact h.rest 3 (by decide)

def fileTurns : Nat := 1023 * 4096 + 1

theorem doOneFile_yields (hwf : fs.WellFormed) (horder : ∀ inode, fs.FileOk inode → fs.InOrder inode) (h0 : 0 ∉ s)
    (hne : s ≠ []) (h : d.Grepping i) (hf : Desk.lookup fs fname = some f) (hdir : f.fOp ≠ some .dir) {fuel : Nat}
    (hfuel : fileTurns ≤ fuel) (hdata : data 1024 ≠ 0x0A) :
    ∃ d' out, Yields (Desk.answer fs) printed (doOneFile fuel data s fname) d out (some 0) d' ∧
      Reported s (message fname) (pieces 1024 [] (fs.contents f)) out ∧ d'.Grepping i := by
  have hfuel : 1023 * 4096 + 1 ≤ fuel := hfuel
  obtain ⟨d1, hopened, hopen, hothers⟩ := h.dir.standard.openFile h.firstInactive (by decide) hf
  have hloop : ∃ d' out, Yields (Desk.answer fs) printed (fileLoop 3 s fname fuel data 0) d1 out (some 0) d' ∧
      Reported s (message fname) (pieces 1024 [] (fs.contents f)) out ∧ d1.Back d' := by
    rcases lookup_cases hwf hf with rfl | rfl | ⟨inode, ho, rfl⟩
    · exact fileLoop_end h0 hne (hopen.read (by decide) (.inl ⟨rfl, rfl⟩)) hopen (fun _ _ => rfl) (carried_nil hdata)
        (by omega)
    · exact absurd rfl hdir
    · have hlength := ho.length_le
      have hturns : fs.lengthInB inode - 0 < fuel := by omega
      exact fileLoop_file h0 hne ho (horder inode ho) hopen (Nat.zero_le _) (carried_nil hdata) hturns
  obtain ⟨d', out, hyields, hr, hback⟩ := hloop
  refine ⟨d', out, Yields.silent hopened rfl hyields, hr, ?_⟩
  exact h.back ⟨hback.standard, hback.closed, fun g hg => (hback.others g hg).trans (hothers g hg)⟩

/-! ## The directory -/

/-- What `grep` may print for the names of the directory, and its status: names that start with a
period are skipped, and one that cannot be opened ends it. -/
inductive Searched (fs : Fs) (s : List UInt8) : List (List UInt8) → List UInt8 → Int → Prop where
  | nil : Searched fs s [] [] 0
  | hidden {name : List UInt8} {names : List (List UInt8)} {out : List UInt8} {status : Int}
      (h : name.head? = some 0x2E) (hr : Searched fs s names out status) : Searched fs s (name :: names) out status
  | closed {name : List UInt8} {names : List (List UInt8)} (h : name.head? ≠ some 0x2E)
      (hf : Desk.lookup fs name = none) : Searched fs s (name :: names) (ascii "file open failed\n") 3
  | file {name : List UInt8} {names : List (List UInt8)} {f : FileT} {out out' : List UInt8} {status : Int}
      (h : name.head? ≠ some 0x2E) (hf : Desk.lookup fs name = some f)
      (hfile : Reported s (message name) (pieces 1024 [] (fs.contents f)) out) (hr : Searched fs s names out' status) :
      Searched fs s (name :: names) (out ++ out') status

/-- Only names that start with a period are of directories. -/
def Fs.DotDirs (fs : Fs) : Prop :=
  ∀ i, i < fs.dentryCount → (fs.name i).head? ≠ some 0x2E → ∀ f, Desk.lookup fs (fs.name i) = some f → f.fOp ≠ some .dir

theorem stringAt_name (buf : Memory) {name : List UInt8} (h0 : 0 ∉ name) (hlen : name.length ≤ 32) :
    stringAt (Function.update (overlay buf 0 name) name.length 0) 33 = name := by
  rw [stringAt_upToNul (n := name.length) (Function.update_self ..) (by omega)]
  have hsame : (List.range name.length).map (Function.update (overlay buf 0 name) name.length 0) = name := by
    refine Eq.trans ?_ (prefixOf_overlay buf name rfl)
    apply List.map_congr_left
    intro j hj
    exact Function.update_of_ne (List.mem_range.mp hj).ne ..
  rw [hsame, upToNul_eq h0]

theorem grepLoop_yields (hwf : fs.WellFormed) (horder : ∀ inode, fs.FileOk inode → fs.InOrder inode)
    (hdirs : fs.DotDirs) (h0 : 0 ∉ s) (hne : s ≠ []) {locals : Nat → Memory} (hlocals : ∀ n, locals n 1024 ≠ 0x0A)
    {fileFuel fuel n : Nat} (hfile : fileTurns ≤ fileFuel) (h : d.Grepping i) (hi : i ≤ fs.dentryCount)
    (hfuel : fs.dentryCount - i < fuel) (buf : Memory) :
    ∃ d' out status, Yields (Desk.answer fs) printed (grepLoop 2 s fileFuel locals fuel n buf) d out (some status) d' ∧
      Searched fs s (fs.namesFrom i) out status := by
  -- on the entries left
  induction fuel generalizing d i n buf with
  | zero => omega
  | succ fuel ih =>
    rcases h.dir.read_dir hi (n := 32) (by omega) with ⟨hend, hread⟩ | ⟨hlt, d1, hread, hopen, hothers⟩
    · refine ⟨d, [], 0, Yields.silent hread rfl Yields.done, ?_⟩
      rw [namesFrom_end (.inl hend.ge)]
      exact .nil
    · have hgrep : d1.Grepping (i + 1) := by
        refine ⟨hopen, fun g hg => ?_⟩
        have hg2 : g ≠ 2 := by
          intro he
          subst he
          exact absurd hg (by decide)
        rw [hothers g hg2]
        exact h.rest g hg
      by_cases hempty : fs.name i = []
      · rw [hempty] at hread
        refine ⟨d1, [], 0, Yields.silent hread rfl Yields.done, ?_⟩
        rw [namesFrom_end (.inr hempty)]
        exact .nil
      rw [namesFrom_cons hlt hempty]
      have hpos : (fs.name i).length ≠ 0 := by simpa using hempty
      have hfirst : overlay buf 0 (fs.name i) 0 = 0x2E ↔ (fs.name i).head? = some 0x2E := by
        have hbyte := overlay_get (m := buf) (i := 0) (show 0 < (fs.name i).length by omega)
        rw [Nat.add_zero] at hbyte
        rw [hbyte]
        cases hname : fs.name i with
        | nil => exact absurd hname hempty
        | cons c name => simp
      by_cases hdot : overlay buf 0 (fs.name i) 0 = 0x2E
      · obtain ⟨d', out, status, hyields, hr⟩ := ih (n := n) hgrep (by omega) (by omega) (overlay buf 0 (fs.name i))
        refine ⟨d', out, status, Yields.silent hread rfl ?_, .hidden (hfirst.mp hdot) hr⟩
        dsimp only
        rw [if_neg (by omega), if_neg (by omega), if_pos hdot]
        exact hyields
      · have hhead : (fs.name i).head? ≠ some 0x2E := fun hh => hdot (hfirst.mpr hh)
        have hzero : 0 ∉ fs.name i := zero_notMem_stringAt
        have hname := stringAt_name buf hzero (name_length_le fs i)
        cases hf : Desk.lookup fs (fs.name i) with
        | none =>
          refine ⟨d1, _, 3, Yields.silent hread rfl ?_, .closed hhead hf⟩
          dsimp only
          rw [if_neg (by omega), if_neg (by omega), if_neg hdot, Int.toNat_natCast, hname]
          have hone : Yields (Desk.answer fs) printed (doOneFile fileFuel (locals n) s (fs.name i)) d1
              (ascii "file open failed\n") (some (-1)) d1 :=
            Yields.silent (openFile_missing hf) rfl (complain_yields hopen.standard _ (-1))
          rw [← List.append_nil (ascii "file open failed\n")]
          exact Yields.bind hone Yields.done
        | some f =>
          obtain ⟨d2, out, hone, hr, hgrep2⟩ :=
            doOneFile_yields hwf horder h0 hne hgrep hf (hdirs i hlt hhead f hf) hfile (hlocals n)
          obtain ⟨d', out', status, hyields, hrest⟩ := ih (n := n + 1) hgrep2 (by omega) (by omega)
            (Function.update (overlay buf 0 (fs.name i)) (fs.name i).length 0)
          refine ⟨d', out ++ out', status, Yields.silent hread rfl ?_, .file hhead hf hr hrest⟩
          dsimp only
          rw [if_neg (by omega), if_neg (by omega), if_neg hdot, Int.toNat_natCast, hname]
          apply Yields.bind hone
          dsimp only
          rw [if_neg (by simp)]
          exact hyields

/-! ## grep -/

/-- What `grep` may print for its argument, and its status, where `.` is no file. -/
inductive Greps (fs : Fs) (arg : List UInt8) : List UInt8 → Int → Prop where
  | noArgument (h : arg = []) : Greps fs arg (ascii "could not read argument\n") 3
  | noDirectory (h : arg ≠ []) (hf : Desk.lookup fs (ascii ".") = none) :
    Greps fs arg (ascii "directory open failed\n") 2
  | rtc {f : FileT} (h : arg ≠ []) (hf : Desk.lookup fs (ascii ".") = some f) (hrtc : f.fOp = some .rtc) :
    Greps fs arg [] 0
  | searched {f : FileT} {out : List UInt8} {status : Int} (h : arg ≠ []) (hf : Desk.lookup fs (ascii ".") = some f)
      (hdir : f.fOp = some .dir) (hr : Searched fs arg (fs.namesFrom 0) out status) : Greps fs arg out status

theorem grep_yields (hdot : ∀ f, Desk.lookup fs (ascii ".") = some f → f.fOp ≠ some .file) (hwf : fs.WellFormed)
    (horder : ∀ inode, fs.FileOk inode → fs.InOrder inode) (hdirs : fs.DotDirs) (h : d.Fresh) (h0 : 0 ∉ d.argument)
    (hlen : d.argument.length < 128) {locals : Nat → Memory} (hlocals : ∀ n, locals n 1024 ≠ 0x0A) {fuel : Nat}
    (hfuel : fileTurns + fs.dentryCount ≤ fuel) (search buf : Memory) :
    ∃ d' out status, Yields (Desk.answer fs) printed (grep fuel locals search buf) d out (some status) d' ∧
      Greps fs d.argument out status := by
  have hturns : fileTurns = 1023 * 4096 + 1 := rfl
  by_cases harg : d.argument = []
  · refine ⟨d, _, 3, Yields.silent (Desk.getargs_empty harg) rfl ?_, .noArgument harg⟩
    exact complain_yields h.standard _ 3
  have hname : stringAt (overlay search 0 (d.argument ++ [0])) 1024 = d.argument := stringAt_overlay h0 (by omega)
  cases hf : Desk.lookup fs (ascii ".") with
  | none =>
    refine ⟨d, _, 2, Yields.silent (Desk.getargs_delivers (n := 1024) harg (by omega)) rfl ?_, .noDirectory harg hf⟩
    exact Yields.silent (openFile_missing hf) rfl (complain_yields h.standard _ 2)
  | some f =>
    obtain ⟨d1, hopened, hopen, hothers⟩ := h.openFile hf
    have hloop : ∃ d' out status, Yields (Desk.answer fs) printed
        (grepLoop 2 d.argument fuel locals fuel 0 buf) d1 out (some status) d' ∧ Greps fs d.argument out status := by
      rcases lookup_cases hwf hf with rfl | rfl | ⟨inode, ho, rfl⟩
      · obtain ⟨n, rfl⟩ := Nat.exists_eq_add_of_lt (show 0 < fuel by omega)
        refine ⟨d1, [], 0, ?_, .rtc harg hf rfl⟩
        rw [Nat.zero_add]
        exact Yields.silent (hopen.read (n := 32) (by decide) (.inl ⟨rfl, rfl⟩)) rfl Yields.done
      · have hgrep : d1.Grepping 0 := by
          refine ⟨hopen, fun g hg => ?_⟩
          have hg2 : g ≠ 2 := by
            intro he
            subst he
            exact absurd hg (by decide)
          rw [hothers g hg2]
          exact h.rest g (by omega)
        obtain ⟨d', out, status, hyields, hr⟩ :=
          grepLoop_yields hwf horder hdirs h0 harg hlocals (n := 0) (show fileTurns ≤ fuel by omega) hgrep
            (Nat.zero_le _) (show _ < fuel by omega) buf
        exact ⟨d', out, status, hyields, .searched harg hf rfl hr⟩
      · exact absurd rfl (hdot _ hf)
    obtain ⟨d', out, status, hyields, hr⟩ := hloop
    refine ⟨d', out, status, Yields.silent (Desk.getargs_delivers (n := 1024) harg (by omega)) rfl ?_, hr⟩
    dsimp only
    rw [if_neg (by simp), hname]
    exact Yields.silent hopened rfl hyields

/-- `listFs` with three lines in `data`, the last one without a newline. -/
def linesFs : Fs where
  bootAddr := listFs.bootAddr
  mem := [(0x452000, [11, 0, 0, 0, 0, 0, 0, 0, 0]), (0x453000, ascii "one\ntwo x\nx")].foldl
    (fun m c => overlay m c.1 c.2) listFs.mem

theorem linesFs_wellFormed : linesFs.WellFormed where
  files := by
    have h : ∀ i, i < 63 → (linesFs.dentry i).fileType = 2 →
        (linesFs.dentry i).inode < linesFs.inodeCount ∧ linesFs.lengthInB (linesFs.dentry i).inode ≤ 1023 * 4096 ∧
        ∀ j, j < (linesFs.lengthInB (linesFs.dentry i).inode + 4095) / 4096 →
          linesFs.dataBlockNumber (linesFs.dentry i).inode j < linesFs.dataBlockCount := by
      decide +kernel
    intro i hi h2
    obtain ⟨hinode, hlength, hblocks⟩ := h i hi h2
    exact ⟨hinode, hlength, hblocks⟩

/-- Slot 1 runs `grep x`; a key is typed and the other terminals start in between. -/
def grepRun : List Event :=
  [.getargs localBuf 1024, .openFile (some (ascii ".")) true, .read 2 localBuf 32, .tick 0 0 zeroEnv,
    .openFile (some (ascii "data")) true, .read 2 localBuf 5, .tick 0 0 zeroEnv, .tick 0 0 zeroEnv,
    .openFile (some (ascii "shell")) true, .read 3 localBuf 1024, .read 3 localBuf 1024, .key 0x61, .close 3,
    .read 2 localBuf 32, .openFile (some (ascii "data")) true, .read 3 localBuf 1024,
    .write 1 (some (cstr (ascii "data"))) 4, .write 1 (some (cstr (ascii ":"))) 1,
    .write 1 (some (cstr (ascii "two x"))) 5, .write 1 (some (cstr (ascii "\n"))) 1, .read 3 localBuf 1023,
    .write 1 (some (cstr (ascii "data"))) 4, .write 1 (some (cstr (ascii ":"))) 1,
    .write 1 (some (cstr (ascii "x"))) 1, .write 1 (some (cstr (ascii "\n"))) 1, .close 3, .read 2 localBuf 32,
    .read 2 localBuf 32]

end Flipit

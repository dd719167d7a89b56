import Mathlib.Algebra.Group.Int.Defs
import Mathlib.Algebra.Group.Nat.Defs
import Mathlib.Data.List.Basic
import Mathlib.Data.List.GetD
import Mathlib.Data.List.Range

/- Byte memories of a 32-bit machine. A memory is a function from addresses to
   bytes; `w32` is the arithmetic of an unsigned register, `slice` a run of bytes
   and `word` a little-endian double word. Addresses wrap at 2^32, so every
   operation is total. A C string is read with `stringAt` and scanned with `runFrom`;
   `runFrom_maxRun` says by its indices what a scan takes. -/
namespace Bytes

abbrev Memory := Nat → UInt8

/-- An unsigned 32-bit register. -/
def w32 (n : Nat) : Nat := n % 2 ^ 32

/-- The signed reading of an unsigned register. -/
def toInt32 (n : Nat) : Int := if n < 2 ^ 31 then n else (n : Int) - 2 ^ 32

/-- The `n` bytes from address `a` on. -/
def slice (m : Memory) (a n : Nat) : List UInt8 := (List.range n).map fun j => m (w32 (a + j))

/-- The double word at address `a`, low byte first. -/
def word (m : Memory) (a : Nat) : Nat :=
  (m (w32 a)).toNat + 2 ^ 8 * (m (w32 (a + 1))).toNat + 2 ^ 16 * (m (w32 (a + 2))).toNat +
    2 ^ 24 * (m (w32 (a + 3))).toNat

/-- The index of the first zero byte below `bound`, or `bound`. -/
def strlen (m : Memory) (bound : Nat) : Nat :=
  ((List.range bound).find? fun i => m i == 0).getD bound

/-- The string at the start of a memory: up to its first zero byte, at most `bound` bytes. -/
def stringAt (m : Memory) (bound : Nat) : List UInt8 := (List.range (strlen m bound)).map m

/-- A string in memory: its bytes, then zeros. -/
def cstr (s : List UInt8) : Memory := fun i => s.getD i 0

/-- The bytes `bs` stored from index `i` on, over what the buffer held. -/
def overlay (m : Memory) (i : Nat) (bs : List UInt8) : Memory :=
  fun a => if i ≤ a ∧ a < i + bs.length then bs.getD (a - i) 0 else m a

/-- Single stores, a byte and the index it goes to, made in order. -/
def stores (m : Memory) (ws : List (UInt8 × Nat)) : Memory :=
  ws.foldl (fun m w => Function.update m w.2 w.1) m

/-- The bytes a scan takes from `s`, whose first byte has index `i`: it goes on as long as
`go` says so. -/
def runFrom (go : Nat → UInt8 → Bool) : List UInt8 → Nat → List UInt8
  | [], _ => []
  | c :: s, i => if go i c then c :: runFrom go s (i + 1) else []

/-- From index `p` the scan goes on up to index `q`, where it stops. -/
def MaxRun (go : Nat → UInt8 → Bool) (m : Memory) (p q : Nat) : Prop :=
  p ≤ q ∧ (∀ j, p ≤ j → j < q → go j (m j) = true) ∧ go q (m q) = false

/-- The bytes at the indices `p .. q - 1`. -/
def segment (m : Memory) (p q : Nat) : List UInt8 := (List.range (q - p)).map fun j => m (p + j)

theorem w32_of_lt {n : Nat} (h : n < 2 ^ 32) : w32 n = n := Nat.mod_eq_of_lt h

theorem toInt32_of_lt {n : Nat} (h : n < 2 ^ 31) : toInt32 n = n := if_pos h

theorem word_lt (m : Memory) (a : Nat) : word m a < 2 ^ 32 := by
  have h0 := (m (w32 a)).toNat_lt
  have h1 := (m (w32 (a + 1))).toNat_lt
  have h2 := (m (w32 (a + 2))).toNat_lt
  have h3 := (m (w32 (a + 3))).toNat_lt
  unfold word
  omega

@[simp] theorem slice_length (m : Memory) (a n : Nat) : (slice m a n).length = n := by
  simp [slice]

@[simp] theorem slice_zero (m : Memory) (a : Nat) : slice m a 0 = [] := rfl

theorem overlay_get {m : Memory} {i j : Nat} {bs : List UInt8} (h : j < bs.length) :
    overlay m i bs (i + j) = bs.getD j 0 := by
  rw [overlay, if_pos (by omega), Nat.add_sub_cancel_left]

theorem overlay_outside {m : Memory} {i a : Nat} {bs : List UInt8} (h : ¬ (i ≤ a ∧ a < i + bs.length)) :
    overlay m i bs a = m a := if_neg h

section
variable {m : Memory} {n b c : Nat}

/-- The bytes before the length are not zero; inside the bound the byte at it is. -/
theorem strlen_spec (m : Memory) (b : Nat) :
    strlen m b ≤ b ∧ (∀ j, j < strlen m b → m j ≠ 0) ∧ (strlen m b < b → m (strlen m b) = 0) := by
  cases h : (List.range b).find? fun i => m i == 0 with
  | none =>
    have hlen : strlen m b = b := by rw [strlen, h, Option.getD_none]
    rw [hlen]
    refine ⟨le_refl _, fun j hj => ?_, fun hb => absurd hb (lt_irrefl _)⟩
    simpa using List.find?_eq_none.mp h j (List.mem_range.mpr hj)
  | some i =>
    have hlen : strlen m b = i := by rw [strlen, h, Option.getD_some]
    obtain ⟨h0, hi, hlt⟩ := List.find?_range_eq_some.mp h
    rw [hlen]
    exact ⟨(List.mem_range.mp hi).le, fun j hj => by simpa using hlt j hj, fun _ => by simpa using h0⟩

theorem strlen_le : strlen m b ≤ b := (strlen_spec m b).1

theorem ne_zero_of_lt_strlen {j : Nat} (h : j < strlen m b) : m j ≠ 0 := (strlen_spec m b).2.1 j h

theorem strlen_eq (hb : n ≤ b) (hlt : ∀ j, j < n → m j ≠ 0) (h0 : n < b → m n = 0) : strlen m b = n := by
  obtain ⟨hle, hne, hz⟩ := strlen_spec m b
  rcases Nat.lt_trichotomy (strlen m b) n with hl | he | hg
  · exact absurd (hz (by omega)) (hlt _ hl)
  · exact he
  · exact absurd (h0 (by omega)) (hne _ hg)

theorem min_strlen (h : b ≤ c) : min (strlen m c) b = strlen m b := by
  obtain ⟨hle, hne, hz⟩ := strlen_spec m c
  symm
  apply strlen_eq (Nat.min_le_right ..) fun j hj => hne j (by omega)
  intro hlt
  rw [Nat.min_eq_left (by omega)]
  exact hz (by omega)

@[simp] theorem stringAt_length : (stringAt m b).length = strlen m b := by simp [stringAt]

/-- Two memories hold the same string if it has the same length and the same bytes. -/
theorem stringAt_eq_iff {m' : Memory} : stringAt m b = stringAt m' c ↔
    strlen m b = strlen m' c ∧ ∀ j, j < strlen m b → m j = m' j := by
  constructor
  · intro h
    have hlen := congrArg List.length h
    simp only [stringAt_length] at hlen
    refine ⟨hlen, fun j hj => ?_⟩
    simpa [stringAt, hj, hlen ▸ hj] using congrArg (·[j]?) h
  · intro h
    obtain ⟨hlen, hbytes⟩ := h
    rw [stringAt, stringAt, ← hlen]
    exact List.map_congr_left fun j hj => hbytes j (List.mem_range.mp hj)

theorem zero_notMem_stringAt : 0 ∉ stringAt m b := by
  intro h
  obtain ⟨j, hj, h0⟩ := List.mem_map.mp h
  exact ne_zero_of_lt_strlen (List.mem_range.mp hj) h0

theorem stringAt_cstr {s : List UInt8} (h0 : 0 ∉ s) : stringAt (cstr s) s.length = s := by
  have hbyte : ∀ j (hj : j < s.length), cstr s j = s[j] := fun j hj => List.getD_eq_getElem _ _ hj
  have hlen : strlen (cstr s) s.length = s.length := by
    apply strlen_eq (le_refl _) _ (fun h => absurd h (lt_irrefl _))
    intro j hj hz
    rw [hbyte j hj] at hz
    exact h0 (hz ▸ List.getElem_mem hj)
  rw [stringAt, hlen]
  apply List.ext_getElem (by simp)
  intro j hj hj'
  rw [List.getElem_map, List.getElem_range, hbyte j hj']

/-- A string that was stored with its terminator is read back, whatever the buffer held. -/
theorem stringAt_overlay {s : List UInt8} (h0 : 0 ∉ s) (hb : s.length < b) :
    stringAt (overlay m 0 (s ++ [0])) b = s := by
  have hbyte : ∀ j, j ≤ s.length → overlay m 0 (s ++ [0]) j = (s ++ [0]).getD j 0 := by
    intro j hj
    simpa using overlay_get (m := m) (i := 0) (show j < (s ++ [0]).length by simp; omega)
  have hlen : strlen (overlay m 0 (s ++ [0])) b = s.length := by
    apply strlen_eq hb.le
    · intro j hj hz
      rw [hbyte j hj.le, List.getD_append _ _ _ _ hj, List.getD_eq_getElem _ _ hj] at hz
      exact h0 (hz ▸ List.getElem_mem hj)
    · intro _
      rw [hbyte _ (le_refl _)]
      simp
  rw [stringAt, hlen]
  apply List.ext_getElem (by simp)
  intro j hj hj'
  rw [List.getElem_map, List.getElem_range, hbyte j hj'.le, List.getD_append _ _ _ _ hj',
    List.getD_eq_getElem _ _ hj']

theorem stores_zipIdx (m : Memory) (i : Nat) (bs : List UInt8) :
    stores m (bs.zipIdx i) = overlay m i bs := by
  induction bs generalizing m i with
  | nil =>
    funext a
    exact (overlay_outside (by simp)).symm
  | cons c bs ih =>
    rw [List.zipIdx_cons, stores, List.foldl_cons]
    refine (ih _ _).trans ?_
    funext a
    rcases Nat.lt_trichotomy a i with hlt | rfl | hgt
    · rw [overlay_outside (by omega), overlay_outside (by omega), Function.update_of_ne (by omega)]
    · rw [overlay_outside (by omega), Function.update_self]
      simpa using (overlay_get (m := m) (i := a) (show 0 < (c :: bs).length by simp)).symm
    · simp only [overlay, List.length_cons, Function.update_of_ne (show a ≠ i by omega)]
      obtain ⟨j, rfl⟩ : ∃ j, a = i + 1 + j := ⟨a - (i + 1), by omega⟩
      rw [show i + 1 + j - (i + 1) = j by omega, show i + 1 + j - i = j + 1 by omega,
        List.getD_cons_succ]
      exact if_congr (by omega) rfl rfl

end

section
variable {p : UInt8 → Bool}

theorem runFrom_length_le (go : Nat → UInt8 → Bool) (s : List UInt8) (i : Nat) : (runFrom go s i).length ≤ s.length := by
  induction s generalizing i with
  | nil => simp [runFrom]
  | cons c s ih =>
    rw [runFrom]
    split
    · simpa using ih (i + 1)
    · simp

theorem runFrom_takeWhile (s : List UInt8) (i : Nat) :
    runFrom (fun _ => p) s i = s.takeWhile p := by
  induction s generalizing i with
  | nil => rfl
  | cons c s ih => rw [runFrom, List.takeWhile_cons, ih]

theorem runFrom_bounded (s : List UInt8) (i b : Nat) :
    runFrom (fun i c => p c && decide (i < b)) s i = (s.takeWhile p).take (b - i) := by
  induction s generalizing i with
  | nil => simp [runFrom]
  | cons c s ih =>
    rw [runFrom, List.takeWhile_cons, ih]
    cases hc : p c with
    | false => simp
    | true =>
      by_cases hi : i < b
      · rw [show b - i = b - (i + 1) + 1 by omega]
        simp [hi]
      · rw [show b - i = 0 by omega]
        simp [hi]

theorem cstr_of_drop_nil {s : List UInt8} {i : Nat} (h : s.drop i = []) : cstr s i = 0 :=
  List.getD_eq_default _ _ (List.drop_eq_nil_iff.mp h)

theorem cstr_of_drop_cons {s t : List UInt8} {c : UInt8} {i : Nat} (h : s.drop i = c :: t) :
    cstr s i = c ∧ s.drop (i + 1) = t := by
  have hget : s[i]? = some c := by
    have := congrArg (·[0]?) h
    simpa using this
  refine ⟨by simp [cstr, hget], ?_⟩
  rw [← List.drop_drop, h, List.drop_one, List.tail_cons]

/-- What a scan of a string from index `i` takes is the run from there to where it stops. -/
theorem runFrom_maxRun (go : Nat → UInt8 → Bool) (h0 : ∀ i, go i 0 = false) (s : List UInt8) (i : Nat) :
    MaxRun go (cstr s) i (i + (runFrom go (s.drop i) i).length) ∧
    runFrom go (s.drop i) i = segment (cstr s) i (i + (runFrom go (s.drop i) i).length) := by
  generalize hs : s.drop i = t
  -- on the bytes left
  induction t generalizing i with
  | nil =>
    refine ⟨⟨Nat.le_add_right .., fun j h h' => ?_, ?_⟩, by simp [runFrom, segment]⟩
    · simp only [runFrom, List.length_nil] at h'
      omega
    · rw [runFrom, List.length_nil, Nat.add_zero, cstr_of_drop_nil hs]
      exact h0 i
  | cons c t ih =>
    obtain ⟨hc, ht⟩ := cstr_of_drop_cons hs
    rw [runFrom]
    split
    · rename_i hgo
      obtain ⟨⟨hle, hrun, hstop⟩, hseg⟩ := ih (i + 1) ht
      rw [List.length_cons, show ∀ n, i + (n + 1) = i + 1 + n by omega]
      refine ⟨⟨by omega, fun j hj hj' => ?_, hstop⟩, ?_⟩
      · rcases Nat.eq_or_lt_of_le hj with rfl | hlt
        · rw [hc]; exact hgo
        · exact hrun j hlt hj'
      · rw [segment, show i + 1 + (runFrom go t (i + 1)).length - i =
          (runFrom go t (i + 1)).length + 1 by omega, List.range_succ_eq_map, List.map_cons,
          List.map_map]
        refine congrArg₂ List.cons hc.symm (hseg.trans ?_)
        rw [segment, Nat.add_sub_cancel_left]
        apply List.map_congr_left
        intro j _
        rw [Function.comp_apply, Nat.succ_eq_add_one, Nat.add_assoc, Nat.add_comm 1 j]
    · rename_i hgo
      refine ⟨⟨by simp, fun j h h' => ?_, ?_⟩, by simp [segment]⟩
      · rw [List.length_nil] at h'
        omega
      · rw [List.length_nil, Nat.add_zero, hc]
        simpa using hgo

end

end Bytes

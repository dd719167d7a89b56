import Flipit.Bytes
import Flipit.Numeral

/- `printf` and its number conversions (`lib.c`).

   A conversion writes into a local array, `conv_buf`. Here that is a list, and a load or store
   behind its end is a fault (`none`); what the array holds before is arbitrary. `itoa` stores the
   digits from the lowest up, terminates them and turns them round in place, so it leaves the
   numeral of `Numeral` with a zero byte behind it (`itoa_eq`). For `%#x` the digits start in the
   middle of the array, and the zeros in front of them are written up to there from an index that
   makes eight characters in all. `conversions` says what the four conversions print.

   Correspondence:
     `strlen`, `strrev`, `itoa`  ↔ `Lib.strlen`, `Lib.strrev`, `Lib.itoa`
     `puts` of a local array     ↔ `Lib.puts`, the bytes it prints
     `printf`                    ↔ `Lib.printf`, the bytes it prints and its value -/
namespace Flipit
namespace Lib

/-- A store into a local array. -/
def store (b : List UInt8) (i : Nat) (c : UInt8) : Option (List UInt8) :=
  if i < b.length then some (b.set i c) else none

/-- The bytes up to the first zero one. -/
def strlen : List UInt8 → Option Nat
  | [] => none
  | c :: s => if c = 0 then some 0 else (strlen s).map fun n => n + 1

/-- What `puts` prints of a string in an array. -/
def puts : List UInt8 → Option (List UInt8)
  | [] => none
  | c :: s => if c = 0 then some [] else (puts s).map fun t => c :: t

/-- The loop of `strrev` over the string at `base`, with that many turns allowed. -/
def strrevLoop (base : Nat) : Nat → List UInt8 → Int → Int → Option (List UInt8)
  | 0, s, beg, last => if beg < last then none else some s
  | turns + 1, s, beg, last =>
    if beg < last then
      (s[base + last.toNat]?).bind fun tmp => (s[base + beg.toNat]?).bind fun c =>
        (store s (base + last.toNat) c).bind fun s => (store s (base + beg.toNat) tmp).bind fun s =>
          strrevLoop base turns s (beg + 1) (last - 1)
    else some s

/-- `strrev` of the string at `base`. -/
def strrev (s : List UInt8) (base : Nat) : Option (List UInt8) :=
  (strlen (s.drop base)).bind fun n => strrevLoop base n s 0 ((n : Int) - 1)

/-- The table of `itoa`. -/
def lookup : List UInt8 :=
  [0x30, 0x31, 0x32, 0x33, 0x34, 0x35, 0x36, 0x37, 0x38, 0x39, 0x41, 0x42, 0x43, 0x44, 0x45, 0x46, 0x47, 0x48,
    0x49, 0x4A, 0x4B, 0x4C, 0x4D, 0x4E, 0x4F, 0x50, 0x51, 0x52, 0x53, 0x54, 0x55, 0x56, 0x57, 0x58, 0x59, 0x5A, 0x00]

/-- The loop of `itoa`, with that many turns allowed: the array and `newbuf` after it. -/
def itoaLoop (radix : Nat) : Nat → List UInt8 → Nat → Nat → Option (List UInt8 × Nat)
  | 0, buf, newbuf, newval => if newval > 0 then none else some (buf, newbuf)
  | turns + 1, buf, newbuf, newval =>
    if newval > 0 then
      (lookup[newval % radix]?).bind fun c => (store buf newbuf c).bind fun buf =>
        itoaLoop radix turns buf (newbuf + 1) (newval / radix)
    else some (buf, newbuf)

/-- `itoa` into the array from `base` on. A 32-bit value has at most 32 digits in a radix from 2 on;
in radix 1 the loop has no end. -/
def itoa (value : Nat) (buf : List UInt8) (base radix : Nat) : Option (List UInt8) :=
  if value = 0 then (store buf base 0x30).bind fun buf => store buf (base + 1) 0
  else (itoaLoop radix 32 buf base value).bind fun (buf, newbuf) =>
    (store buf newbuf 0).bind fun buf => strrev buf base

/-- The case `x` of `printf`: the bytes it prints. -/
def convertX (alternate : Bool) (value : Nat) (convBuf : List UInt8) : Option (List UInt8) :=
  if alternate = false then (itoa value convBuf 0 16).bind puts
  else
    (itoa value convBuf 8 16).bind fun convBuf => (strlen (convBuf.drop 8)).bind fun startingIndex =>
      ((List.range' startingIndex (8 - startingIndex)).foldlM (fun b i => store b i 0x30) convBuf).bind
        fun convBuf => puts (convBuf.drop startingIndex)

/-- The case `u`. -/
def convertU (value : Nat) (convBuf : List UInt8) : Option (List UInt8) :=
  (itoa value convBuf 0 10).bind puts

/-- The case `d`: `-value` is 32-bit. -/
def convertD (word : Nat) (convBuf : List UInt8) : Option (List UInt8) :=
  let value := Bytes.toInt32 word
  if value < 0 then
    (store convBuf 0 0x2D).bind fun convBuf => (itoa ((-value) % 2 ^ 32).toNat convBuf 1 10).bind puts
  else (itoa value.toNat convBuf 0 10).bind puts

/-- What `printf` finds: the words above `format` on the stack, the strings at addresses, and what
the local array of the conversion of word `esp` holds before. -/
structure Args where
  word : Nat → Nat
  string : Nat → List UInt8
  uninit : Nat → Nat → UInt8

/-- A local array of `n` bytes. -/
def Args.convBuf (a : Args) (esp n : Nat) : List UInt8 := (List.range n).map (a.uninit esp)

/-- Print these bytes, then go on. -/
def emit (t : List UInt8) (rest : Option (List UInt8)) : Option (List UInt8) := rest.map fun s => t ++ s

/-- The loop of `printf` over the rest of the format: in the text, or behind a `%` with its
`alternate`. A `%` at the end takes the zero byte for its conversion, and the loop runs on behind
the format. -/
def printfLoop (a : Args) : Option Bool → Nat → List UInt8 → Option (List UInt8)
  | none, _, [] => some []
  | some _, _, [] => none
  | none, esp, c :: format =>
    if c = 0x25 then printfLoop a (some false) esp format else emit [c] (printfLoop a none esp format)
  | some alternate, esp, c :: format =>
    if c = 0x25 then emit [0x25] (printfLoop a none esp format)
    else if c = 0x23 then printfLoop a (some true) esp format
    else if c = 0x78 then
      (convertX alternate (a.word esp) (a.convBuf esp 64)).bind fun t =>
        emit t (printfLoop a none (esp + 1) format)
    else if c = 0x75 then
      (convertU (a.word esp) (a.convBuf esp 36)).bind fun t => emit t (printfLoop a none (esp + 1) format)
    else if c = 0x64 then
      (convertD (a.word esp) (a.convBuf esp 36)).bind fun t => emit t (printfLoop a none (esp + 1) format)
    else if c = 0x63 then
      emit [UInt8.ofNat (a.word esp)] (printfLoop a none (esp + 1) format)
    else if c = 0x73 then emit (a.string (a.word esp)) (printfLoop a none (esp + 1) format)
    else printfLoop a none esp format

/-- `printf`: the bytes it prints, and how far it has gone in the format. -/
def printf (a : Args) (format : List UInt8) : Option (List UInt8 × Nat) :=
  (printfLoop a none 0 format).map fun t => (t, format.length)

/-! ## Arrays -/

section
variable {p q s : List UInt8} {c d : UInt8}

theorem store_append (p : List UInt8) (d : UInt8) (q : List UInt8) (c : UInt8) :
    store (p ++ d :: q) p.length c = some (p ++ c :: q) := by
  rw [store, if_pos (by simp), List.set_append_right _ _ (Nat.le_refl _), Nat.sub_self, List.set_cons_zero]

theorem strlen_append (h : 0 ∉ s) (q : List UInt8) : strlen (s ++ 0 :: q) = some s.length := by
  induction s with
  | nil => rfl
  | cons c s ih =>
    obtain ⟨hc, hs⟩ := not_or.mp (mt List.mem_cons.mpr h)
    rw [List.cons_append, strlen, if_neg (Ne.symm hc), ih hs]
    rfl

theorem puts_append (h : 0 ∉ s) (q : List UInt8) : puts (s ++ 0 :: q) = some s := by
  induction s with
  | nil => rfl
  | cons c s ih =>
    obtain ⟨hc, hs⟩ := not_or.mp (mt List.mem_cons.mpr h)
    rw [List.cons_append, puts, if_neg (Ne.symm hc), ih hs]
    rfl

theorem store_range (p t q : List UInt8) (c : UInt8) :
    (List.range' p.length t.length).foldlM (fun b i => store b i c) (p ++ t ++ q) =
      some (p ++ List.replicate t.length c ++ q) := by
  induction t generalizing p with
  | nil => simp
  | cons d t ih =>
    have hnext := ih (p ++ [c])
    rw [List.length_append, List.length_singleton] at hnext
    rw [List.length_cons, List.range'_succ, List.foldlM_cons, List.append_assoc, List.cons_append, store_append,
      List.replicate_succ]
    simpa using hnext

/-- `strrev` exchanges the ends of what is left between them, and goes on inside. -/
theorem strrevLoop_eq (base : Nat) (mid : List UInt8) (turns beg : Nat) (p q : List UInt8)
    (hp : p.length = base + beg) (hturns : mid.length ≤ turns) :
    strrevLoop base turns (p ++ mid ++ q) beg (beg + mid.length - 1) = some (p ++ mid.reverse ++ q) := by
  -- on the string from both ends
  induction mid using List.bidirectionalRec generalizing p q turns beg with
  | nil =>
    cases turns with
    | zero => simp [strrevLoop]
    | succ turns => simp [strrevLoop]
  | singleton a =>
    cases turns with
    | zero => simp [strrevLoop]
    | succ turns => simp [strrevLoop]
  | cons_append a l b ih =>
    have hlen : (a :: (l ++ [b])).length = l.length + 2 := by simp
    obtain ⟨turns, rfl⟩ : ∃ n, turns = n + 1 := ⟨turns - 1, by omega⟩
    have hlast : base + ((beg : Int) + ((a :: (l ++ [b])).length : Nat) - 1).toNat = (p ++ a :: l).length := by
      rw [hlen, List.length_append, List.length_cons]
      omega
    have hbeg : base + (beg : Int).toNat = p.length := by omega
    have hsplit : p ++ a :: (l ++ [b]) ++ q = (p ++ a :: l) ++ b :: q := by simp
    have hget : (p ++ a :: (l ++ [b]) ++ q)[p.length]? = some a := by
      rw [List.append_assoc, List.cons_append, List.getElem?_append_right (Nat.le_refl _), Nat.sub_self]
      rfl
    have hput : store ((p ++ a :: l) ++ a :: q) p.length b = some ((p ++ b :: l) ++ a :: q) := by
      rw [List.append_assoc, List.cons_append, store_append, List.append_assoc, List.cons_append]
    have hrest := ih turns (beg + 1) (p ++ [b]) (a :: q) (by simp [hp]; omega) (by omega)
    rw [strrevLoop, if_pos (by rw [hlen]; omega), hlast, hbeg, hget, hsplit,
      List.getElem?_append_right (Nat.le_refl _), Nat.sub_self, List.getElem?_cons_zero, Option.bind_some,
      Option.bind_some, store_append, Option.bind_some, hput, Option.bind_some]
    rw [show (beg : Int) + ((a :: (l ++ [b])).length : Nat) - 1 - 1 = ((beg + 1 : Nat) : Int) + l.length - 1 by
      rw [hlen]; omega]
    simpa using hrest

end

/-! ## Numbers -/

section
variable {radix value : Nat}

theorem lookup_digitChar : ∀ d < 36, lookup[d]? = some (Numeral.digitChar d) := by decide

theorem digits_nul {ds : List Nat} (h : ∀ d ∈ ds, d < 36) : 0 ∉ ds.map Numeral.digitChar := by
  intro hmem
  obtain ⟨d, hd, hc⟩ := List.mem_map.mp hmem
  exact Numeral.digitChar_ne_nul d (h d hd) hc

theorem numeral_nul (hr : 1 < radix) (hmax : radix ≤ 36) : 0 ∉ Numeral.numeral radix value := by
  intro hmem
  obtain ⟨d, hd, hc⟩ := Numeral.mem_numeral hr hmax hmem
  exact Numeral.digitChar_ne_nul d hd hc

/-- The loop stores the digits from `newbuf` on, the least significant first. -/
theorem itoaLoop_eq (hr : 1 < radix) (hmax : radix ≤ 36) (turns : Nat) {newval : Nat} (p rest : List UInt8)
    (hval : newval < radix ^ turns) (hroom : (Nat.digits radix newval).length ≤ rest.length) :
    itoaLoop radix turns (p ++ rest) p.length newval =
      some (p ++ (Nat.digits radix newval).map Numeral.digitChar ++ rest.drop (Nat.digits radix newval).length,
        p.length + (Nat.digits radix newval).length) := by
  induction turns generalizing newval p rest with
  | zero =>
    obtain rfl : newval = 0 := by simpa using hval
    simp [itoaLoop]
  | succ turns ih =>
    by_cases hpos : newval > 0
    · have hdigits := Nat.digits_def' hr hpos
      have hdigit : newval % radix < 36 := (Nat.mod_lt _ (by omega)).trans_le hmax
      rw [hdigits, List.length_cons] at hroom
      have hsome : rest ≠ [] := by
        intro hnil
        rw [hnil] at hroom
        exact absurd hroom (Nat.not_succ_le_zero _)
      obtain ⟨d, rest, rfl⟩ := List.exists_cons_of_ne_nil hsome
      have hless : newval / radix < radix ^ turns := by
        rw [Nat.div_lt_iff_lt_mul (by omega)]
        rwa [Nat.pow_succ] at hval
      have hnext := ih (p ++ [Numeral.digitChar (newval % radix)]) rest hless (by simpa using hroom)
      rw [List.length_append, List.length_singleton] at hnext
      rw [itoaLoop, if_pos hpos, lookup_digitChar _ hdigit, Option.bind_some, store_append, Option.bind_some, hdigits]
      simpa [Nat.add_assoc, Nat.add_comm 1] using hnext
    · obtain rfl : newval = 0 := by omega
      simp [itoaLoop]

theorem itoa_zero (p rest : List UInt8) (hroom : 1 < rest.length) :
    itoa 0 (p ++ rest) p.length radix = some (p ++ [0x30] ++ 0 :: rest.drop 2) := by
  obtain ⟨c, d, rest, rfl⟩ : ∃ c d r, rest = c :: d :: r := by
    cases rest with
    | nil => simp at hroom
    | cons c r =>
      cases r with
      | nil => simp at hroom
      | cons d r => exact ⟨c, d, r, rfl⟩
  have hsecond := store_append (p ++ [0x30]) d rest 0
  rw [List.length_append, List.length_singleton] at hsecond
  rw [itoa, if_pos rfl, store_append, Option.bind_some]
  simpa using hsecond

/-- Any other value: the digits from the last one on, the zero byte behind them, and round. -/
theorem itoa_digits (hr : 1 < radix) (hmax : radix ≤ 36) (hval : value < 2 ^ 32) (h0 : value ≠ 0)
    (p rest : List UInt8) (hroom : (Nat.digits radix value).length < rest.length) :
    itoa value (p ++ rest) p.length radix =
      some (p ++ ((Nat.digits radix value).map Numeral.digitChar).reverse ++
        0 :: rest.drop ((Nat.digits radix value).length + 1)) := by
  have hturns : value < radix ^ 32 := hval.trans_le (Nat.pow_le_pow_left hr 32)
  have hloop := itoaLoop_eq hr hmax 32 p rest hturns (by omega)
  have hnul : 0 ∉ (Nat.digits radix value).map Numeral.digitChar :=
    digits_nul fun d hd => (Nat.digits_lt_base hr hd).trans_le hmax
  generalize hds : (Nat.digits radix value).map Numeral.digitChar = ds at hloop hnul ⊢
  have hcount : (Nat.digits radix value).length = ds.length := by rw [← hds, List.length_map]
  rw [hcount] at hloop hroom ⊢
  have hdrop : rest.drop ds.length = rest[ds.length] :: rest.drop (ds.length + 1) :=
    List.drop_eq_getElem_cons hroom
  rw [hdrop] at hloop
  have hend := store_append (p ++ ds) rest[ds.length] (rest.drop (ds.length + 1)) 0
  rw [List.length_append] at hend
  have hstart : (p ++ ds ++ 0 :: rest.drop (ds.length + 1)).drop p.length = ds ++ 0 :: rest.drop (ds.length + 1) := by
    rw [List.append_assoc, List.drop_left]
  have hrev := strrevLoop_eq p.length ds ds.length 0 p (0 :: rest.drop (ds.length + 1)) rfl (Nat.le_refl _)
  rw [itoa, if_neg h0, hloop, Option.bind_some]
  dsimp only
  rw [hend, Option.bind_some, strrev, hstart, strlen_append hnul, Option.bind_some]
  simpa using hrev

/-- `itoa` leaves the numeral and a zero byte, and nothing else of the array changes. -/
theorem itoa_eq (hr : 1 < radix) (hmax : radix ≤ 36) (hval : value < 2 ^ 32) (p rest : List UInt8)
    (hroom : (Numeral.numeral radix value).length < rest.length) :
    itoa value (p ++ rest) p.length radix =
      some (p ++ Numeral.numeral radix value ++ 0 :: rest.drop ((Numeral.numeral radix value).length + 1)) := by
  by_cases h0 : value = 0
  · subst h0
    exact itoa_zero p rest hroom
  · have hdigits : Numeral.digits radix value = Nat.digits radix value := if_neg h0
    have hnumeral : Numeral.numeral radix value = ((Nat.digits radix value).map Numeral.digitChar).reverse := by
      rw [Numeral.numeral, hdigits, List.map_reverse]
    rw [hnumeral, List.length_reverse, List.length_map] at hroom ⊢
    exact itoa_digits hr hmax hval h0 p rest hroom

end

/-! ## The conversions -/

section
variable {value : Nat} {convBuf : List UInt8}

theorem numeral_ten (h : value < 2 ^ 32) : (Numeral.numeral 10 value).length ≤ 10 :=
  Numeral.numeral_length (by decide) (by decide) (h.trans (by decide))

theorem numeral_sixteen (h : value < 2 ^ 32) : (Numeral.numeral 16 value).length ≤ 8 :=
  Numeral.numeral_length (by decide) (by decide) h

theorem itoa_puts {radix : Nat} (hr : 1 < radix) (hmax : radix ≤ 36) (h : value < 2 ^ 32)
    (hroom : (Numeral.numeral radix value).length < convBuf.length) :
    (itoa value convBuf 0 radix).bind puts = some (Numeral.numeral radix value) := by
  have hitoa := itoa_eq hr hmax h [] convBuf hroom
  rw [List.nil_append, List.length_nil, List.nil_append] at hitoa
  rw [hitoa, Option.bind_some, puts_append (numeral_nul hr hmax)]

theorem convertU_eq (h : value < 2 ^ 32) (hb : convBuf.length = 36) :
    convertU value convBuf = some (Numeral.numeral 10 value) := by
  have hlen := numeral_ten h
  exact itoa_puts (by decide) (by decide) h (by omega)

theorem convertX_eq (h : value < 2 ^ 32) (hb : convBuf.length = 64) :
    convertX false value convBuf = some (Numeral.numeral 16 value) := by
  have hlen := numeral_sixteen h
  rw [convertX, if_pos rfl]
  exact itoa_puts (by decide) (by decide) h (by omega)

/-- `%#x`: the digits lie from index 8 on, and as many zeros are written before index 8 as make
eight characters with them. -/
theorem convertX_alternate (h : value < 2 ^ 32) (hb : convBuf.length = 64) :
    convertX true value convBuf =
      some (List.replicate (8 - (Numeral.numeral 16 value).length) 0x30 ++ Numeral.numeral 16 value) := by
  have hlen := numeral_sixteen h
  have hnul : 0 ∉ Numeral.numeral 16 value := numeral_nul (by decide) (by decide)
  have hitoa := itoa_eq (show 1 < 16 by decide) (by decide) h (convBuf.take 8) (convBuf.drop 8)
    (by rw [List.length_drop, hb]; omega)
  rw [List.take_append_drop, List.length_take, hb, show min 8 64 = 8 by decide] at hitoa
  rw [convertX, if_neg (by decide), hitoa, Option.bind_some]
  generalize Numeral.numeral 16 value = n at hlen hnul
  generalize hq : (convBuf.drop 8).drop (n.length + 1) = q
  -- the first eight bytes in two parts: left alone, and overwritten
  obtain ⟨p, t, hsplit, hp, ht⟩ : ∃ p t, convBuf.take 8 = p ++ t ∧ p.length = n.length ∧ t.length = 8 - n.length :=
    ⟨(convBuf.take 8).take n.length, (convBuf.take 8).drop n.length, (List.take_append_drop ..).symm,
      by simp [hb]; omega, by simp [hb]⟩
  have hstart : (p ++ t ++ n ++ 0 :: q).drop 8 = n ++ 0 :: q := by
    rw [List.append_assoc (p ++ t)]
    exact List.drop_left' (by rw [List.length_append]; omega)
  have hpad := store_range p t (n ++ 0 :: q) 0x30
  have hzeros : 0 ∉ List.replicate (8 - n.length) 0x30 ++ n := by
    intro hmem
    rcases List.mem_append.mp hmem with hzero | hn
    · exact absurd (List.eq_of_mem_replicate hzero) (by decide)
    · exact hnul hn
  rw [hp, ht, ← List.append_assoc] at hpad
  rw [hsplit, hstart, strlen_append hnul, Option.bind_some, hpad, Option.bind_some, ← hp, List.append_assoc,
    List.drop_left, ← List.append_assoc, hp, puts_append hzeros]

theorem convertD_eq (h : value < 2 ^ 32) (hb : convBuf.length = 36) :
    convertD value convBuf =
      some (if value < 2 ^ 31 then Numeral.numeral 10 value else 0x2D :: Numeral.numeral 10 (2 ^ 32 - value)) := by
  unfold convertD Bytes.toInt32
  by_cases hneg : value < 2 ^ 31
  · have hlen := numeral_ten h
    simp only [if_pos hneg]
    rw [if_neg (by omega), Int.toNat_natCast]
    exact itoa_puts (by decide) (by decide) h (by omega)
  · have hmag : 2 ^ 32 - value < 2 ^ 32 := by omega
    have hlen := numeral_ten hmag
    have hval : (-((value : Int) - 2 ^ 32) % 2 ^ 32).toNat = 2 ^ 32 - value := by omega
    obtain ⟨c, rest, rfl⟩ := List.exists_cons_of_ne_nil (l := convBuf) (by
      intro hnil
      rw [hnil] at hb
      cases hb)
    rw [List.length_cons] at hb
    have hitoa := itoa_eq (show 1 < 10 by decide) (by decide) hmag [0x2D] rest (by omega)
    have hstore := store_append [] c rest 0x2D
    have hnul : 0 ∉ 0x2D :: Numeral.numeral 10 (2 ^ 32 - value) := by
      intro hmem
      rcases List.mem_cons.mp hmem with hminus | hn
      · cases hminus
      · exact numeral_nul (by decide) (by decide) hn
    simp only [if_neg hneg]
    rw [if_pos (by omega), hval]
    rw [List.nil_append, List.length_nil, List.nil_append] at hstore
    rw [hstore, Option.bind_some]
    rw [List.length_singleton] at hitoa
    change (itoa (2 ^ 32 - value) ([0x2D] ++ rest) 1 10).bind puts = _
    rw [hitoa, Option.bind_some]
    exact puts_append hnul _

end

/-! ## The format -/

/-- Behind a `%` these characters print `t`, from the word `esp` of the stack and wherever they
stand in the format. -/
def Emits (a : Args) (esp : Nat) (conversion t : List UInt8) : Prop :=
  ∀ format, printfLoop a none esp (0x25 :: conversion ++ format) = emit t (printfLoop a none (esp + 1) format)

section
variable {a : Args} {esp : Nat}

theorem convBuf_length (a : Args) (esp n : Nat) : (a.convBuf esp n).length = n := by
  simp [Args.convBuf]

theorem printf_text (a : Args) {format : List UInt8} (h : 0x25 ∉ format) :
    printf a format = some (format, format.length) := by
  have hloop : printfLoop a none 0 format = some format := by
    induction format with
    | nil => rfl
    | cons c format ih =>
      obtain ⟨hc, hformat⟩ := not_or.mp (mt List.mem_cons.mpr h)
      rw [printfLoop, if_neg (Ne.symm hc), ih hformat]
      rfl
  rw [printf, hloop]
  rfl

theorem emits_u (h : a.word esp < 2 ^ 32) : Emits a esp [0x75] (Numeral.numeral 10 (a.word esp)) := by
  intro format
  have hconvert := convertU_eq h (convBuf_length a esp 36)
  simp [printfLoop, hconvert]

theorem emits_x (h : a.word esp < 2 ^ 32) : Emits a esp [0x78] (Numeral.numeral 16 (a.word esp)) := by
  intro format
  have hconvert := convertX_eq h (convBuf_length a esp 64)
  simp [printfLoop, hconvert]

theorem emits_alternate (h : a.word esp < 2 ^ 32) :
    Emits a esp [0x23, 0x78]
      (List.replicate (8 - (Numeral.numeral 16 (a.word esp)).length) 0x30 ++ Numeral.numeral 16 (a.word esp)) := by
  intro format
  have hconvert := convertX_alternate h (convBuf_length a esp 64)
  simp [printfLoop, hconvert]

theorem emits_d (h : a.word esp < 2 ^ 32) :
    Emits a esp [0x64] (if a.word esp < 2 ^ 31 then Numeral.numeral 10 (a.word esp)
      else 0x2D :: Numeral.numeral 10 (2 ^ 32 - a.word esp)) := by
  intro format
  have hconvert := convertD_eq h (convBuf_length a esp 36)
  simp only [printfLoop, List.cons_append, List.nil_append, if_true]
  rw [if_neg (by decide), if_neg (by decide), if_neg (by decide), if_neg (by decide), hconvert, Option.bind_some]

end

/-- `itoa` leaves the positional representation of every 32-bit value in every radix from 2 to 36, of
at most 32 digits and with a zero byte behind it, and the rest of the array as it was. So for
every 32-bit word `%u`, `%x`, `%d` and `%#x` print a text that stands for it, the last one in
exactly eight digits, and whatever their arrays held, no load or store of theirs lies outside. -/
theorem conversions {radix value : Nat} (hr : 2 ≤ radix) (hmax : radix ≤ 36) (hval : value < 2 ^ 32)
    (a : Args) (esp : Nat) (hword : a.word esp < 2 ^ 32) :
    (∃ s, Numeral.Positional radix value s ∧ s.length ≤ 32 ∧ 0 ∉ s ∧
      ∀ p rest, s.length < rest.length →
        itoa value (p ++ rest) p.length radix = some (p ++ s ++ 0 :: rest.drop (s.length + 1))) ∧
    (∃ t, Emits a esp [0x75] t ∧ Numeral.parse 10 t = some (a.word esp)) ∧
    (∃ t, Emits a esp [0x78] t ∧ Numeral.parse 16 t = some (a.word esp)) ∧
    (∃ t, Emits a esp [0x64] t ∧ Numeral.parseInt 10 t = some (Bytes.toInt32 (a.word esp))) ∧
    (∃ t, Emits a esp [0x23, 0x78] t ∧ t.length = 8 ∧ Numeral.parse 16 t = some (a.word esp)) := by
  have hturns : value < radix ^ 32 := hval.trans_le (Nat.pow_le_pow_left hr 32)
  refine ⟨⟨Numeral.numeral radix value, Numeral.numeral_positional hr hmax value,
    Numeral.numeral_length hr (by decide) hturns, numeral_nul hr hmax, itoa_eq hr hmax hval⟩,
    ⟨_, emits_u hword, Numeral.parse_numeral (by decide) (by decide) _⟩,
    ⟨_, emits_x hword, Numeral.parse_numeral (by decide) (by decide) _⟩, ⟨_, emits_d hword, ?_⟩,
    ⟨_, emits_alternate hword, ?_, ?_⟩⟩
  · unfold Bytes.toInt32
    by_cases hneg : a.word esp < 2 ^ 31
    · rw [if_pos hneg, if_pos hneg, Numeral.parseInt_numeral (by decide) (by decide)]
    · rw [if_neg hneg, if_neg hneg, Numeral.parseInt_minus (by decide) (by decide)]
      exact congrArg some (by omega)
  · have hlen := numeral_sixteen hword
    rw [List.length_append, List.length_replicate]
    omega
  · rw [Numeral.parse_padded (by decide) _ (Numeral.numeral_ne_nil 16 _)]
    exact Numeral.parse_numeral (by decide) (by decide) _

/-- The least 32-bit number, whose negation wraps to itself. -/
theorem conversions_least : ∃ t,
    Emits ⟨fun _ => 2147483648, fun _ => [], fun _ _ => 0⟩ 0 [0x64] t ∧
      Numeral.parseInt 10 t = some (-2147483648) :=
  (conversions (show 2 ≤ 2 by decide) (by decide) (show 4294967295 < 2 ^ 32 by decide)
    ⟨fun _ => 2147483648, fun _ => [], fun _ _ => 0⟩ 0 (by decide)).2.2.2.1

end Lib

end Flipit

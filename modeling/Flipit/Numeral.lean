import Mathlib.Data.Nat.Digits.Lemmas

/- Positional numerals in ASCII, for radices up to 36.

   `numeral radix n` writes `n` with the digits 0-9 and A-Z, most significant digit first; `parse`
   reads such a text and refuses any other. `parse_numeral` is the round trip, for every number and
   radix, and `numeral_leading` says that no digit is written for nothing. The digits themselves
   are Mathlib's `Nat.digits`. -/
namespace Numeral

/-- The digits of a number, the least significant first. Zero has one. -/
def digits (radix n : Nat) : List Nat := if n = 0 then [0] else Nat.digits radix n

def digitChar (d : Nat) : UInt8 := if d < 10 then UInt8.ofNat (0x30 + d) else UInt8.ofNat (0x37 + d)

def digitValue (c : UInt8) : Option Nat :=
  if 0x30 ≤ c.toNat ∧ c.toNat ≤ 0x39 then some (c.toNat - 0x30)
  else if 0x41 ≤ c.toNat ∧ c.toNat ≤ 0x5A then some (c.toNat - 0x37)
  else none

def numeral (radix n : Nat) : List UInt8 := (digits radix n).reverse.map digitChar

/-- One more digit of a number being read. -/
def readDigit (radix acc : Nat) (c : UInt8) : Option Nat :=
  (digitValue c).bind fun d => if d < radix then some (acc * radix + d) else none

/-- The number a text stands for. -/
def parse (radix : Nat) (s : List UInt8) : Option Nat :=
  if s = [] then none else s.foldlM (readDigit radix) 0

/-- The same, with a minus sign in front or without one. -/
def parseInt (radix : Nat) (s : List UInt8) : Option Int :=
  if s.head? = some 0x2D then (parse radix s.tail).map fun n : Nat => -(n : Int)
  else (parse radix s).map fun n : Nat => (n : Int)

/-- A text that stands for `n` and starts with a zero only if it is one. -/
structure Positional (radix n : Nat) (s : List UInt8) : Prop where
  parses : parse radix s = some n
  leading : s.head? = some 0x30 → s = [0x30]

variable {radix n : Nat} {s : List UInt8}

theorem digitValue_digitChar : ∀ d < 36, digitValue (digitChar d) = some d := by decide

theorem digitChar_zero : ∀ d < 36, digitChar d = 0x30 → d = 0 := by decide

theorem digitChar_ne_nul : ∀ d < 36, digitChar d ≠ 0 := by decide

theorem digitChar_ne_minus : ∀ d < 36, digitChar d ≠ 0x2D := by decide

theorem digits_ne_nil (radix n : Nat) : digits radix n ≠ [] := by
  unfold digits
  by_cases h : n = 0
  · simp [h]
  · rw [if_neg h]
    exact Nat.digits_ne_nil_iff_ne_zero.mpr h

theorem digits_lt (hr : 1 < radix) {d : Nat} (hd : d ∈ digits radix n) : d < radix := by
  unfold digits at hd
  by_cases h : n = 0
  · rw [if_pos h] at hd
    rw [List.mem_singleton.mp hd]
    omega
  · rw [if_neg h] at hd
    exact Nat.digits_lt_base hr hd

theorem ofDigits_digits (radix n : Nat) : Nat.ofDigits radix (digits radix n) = n := by
  unfold digits
  by_cases h : n = 0
  · simp [h]
  · rw [if_neg h]
    exact Nat.ofDigits_digits radix n

theorem numeral_ne_nil (radix n : Nat) : numeral radix n ≠ [] := by
  intro h
  rw [numeral, List.map_eq_nil_iff, List.reverse_eq_nil_iff] at h
  exact digits_ne_nil radix n h

theorem numeral_length (hr : 1 < radix) {k : Nat} (hk : 0 < k) (h : n < radix ^ k) :
    (numeral radix n).length ≤ k := by
  rw [numeral, List.length_map, List.length_reverse, digits]
  by_cases h0 : n = 0
  · rw [if_pos h0]
    exact hk
  · rw [if_neg h0]
    exact (Nat.digits_length_le_iff hr n).mpr h

theorem mem_numeral (hr : 1 < radix) (hmax : radix ≤ 36) {c : UInt8} (h : c ∈ numeral radix n) :
    ∃ d < 36, digitChar d = c := by
  obtain ⟨d, hd, hc⟩ := List.mem_map.mp h
  have hlt := digits_lt hr (List.mem_reverse.mp hd)
  exact ⟨d, by omega, hc⟩

/-! ## Reading back -/

theorem readDigit_digitChar (hmax : radix ≤ 36) {d : Nat} (hd : d < radix) (acc : Nat) :
    readDigit radix acc (digitChar d) = some (acc * radix + d) := by
  rw [readDigit, digitValue_digitChar d (by omega), Option.bind_some, if_pos hd]

theorem read_digits (hmax : radix ≤ 36) (ds : List Nat) (h : ∀ d ∈ ds, d < radix) :
    (ds.reverse.map digitChar).foldlM (readDigit radix) 0 = some (Nat.ofDigits radix ds) := by
  induction ds with
  | nil => rfl
  | cons d ds ih =>
    rw [List.reverse_cons, List.map_append, List.foldlM_append, ih fun d hd => h d (.tail _ hd)]
    have hdigit := readDigit_digitChar hmax (h d (.head _)) (Nat.ofDigits radix ds)
    simp only [List.map_cons, List.map_nil, List.foldlM_cons, List.foldlM_nil, Option.bind_eq_bind,
      Option.bind_some, hdigit, Option.pure_def, Nat.ofDigits_cons]
    congr 1
    ring

theorem parse_numeral (hr : 1 < radix) (hmax : radix ≤ 36) (n : Nat) :
    parse radix (numeral radix n) = some n := by
  rw [parse, if_neg (numeral_ne_nil radix n), numeral, read_digits hmax _ fun d hd => digits_lt hr hd,
    ofDigits_digits]

theorem numeral_leading (hr : 1 < radix) (hmax : radix ≤ 36) (h : (numeral radix n).head? = some 0x30) :
    numeral radix n = [0x30] := by
  by_cases h0 : n = 0
  · rw [numeral, digits, if_pos h0]
    rfl
  · -- the first digit written is the last one of `Nat.digits`
    exfalso
    have hne := Nat.digits_ne_nil_iff_ne_zero (b := radix).mpr h0
    rw [numeral, digits, if_neg h0, List.head?_map, List.head?_reverse, List.getLast?_eq_some_getLast hne] at h
    have hlt := Nat.digits_lt_base hr (List.getLast_mem hne)
    exact Nat.getLast_digit_ne_zero radix h0 (digitChar_zero _ (by omega) (Option.some.inj h))

theorem numeral_positional (hr : 1 < radix) (hmax : radix ≤ 36) (n : Nat) :
    Positional radix n (numeral radix n) :=
  ⟨parse_numeral hr hmax n, numeral_leading hr hmax⟩

theorem parse_padded (hr : 1 < radix) (k : Nat) (hs : s ≠ []) :
    parse radix (List.replicate k 0x30 ++ s) = parse radix s := by
  have hzero : readDigit radix 0 0x30 = some 0 := by
    rw [readDigit, show digitValue 0x30 = some 0 by decide, Option.bind_some, if_pos (by omega), Nat.zero_mul]
  have hzeros : (List.replicate k (0x30 : UInt8)).foldlM (readDigit radix) 0 = some 0 := by
    induction k with
    | zero => rfl
    | succ k ih =>
      rw [List.replicate_succ, List.foldlM_cons, hzero]
      exact ih
  rw [parse, parse, if_neg hs, if_neg (by simp [hs]), List.foldlM_append, hzeros]
  rfl

theorem parseInt_numeral (hr : 1 < radix) (hmax : radix ≤ 36) (n : Nat) :
    parseInt radix (numeral radix n) = some (n : Int) := by
  have hhead : (numeral radix n).head? ≠ some 0x2D := by
    intro h
    obtain ⟨d, hd, hc⟩ := mem_numeral hr hmax (List.mem_of_head? h)
    exact digitChar_ne_minus d hd hc
  rw [parseInt, if_neg hhead, parse_numeral hr hmax]
  rfl

theorem parseInt_minus (hr : 1 < radix) (hmax : radix ≤ 36) (n : Nat) :
    parseInt radix (0x2D :: numeral radix n) = some (-(n : Int)) := by
  rw [parseInt, if_pos (List.head?_cons ..), List.tail_cons, parse_numeral hr hmax]
  rfl

end Numeral

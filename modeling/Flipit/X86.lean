import Mathlib.Algebra.Group.Int.Defs
import Mathlib.Algebra.Group.Nat.Defs
import Mathlib.Logic.Function.Basic
import Mathlib.Data.List.Range

/- Straight-line code and jumps of a 32-bit x86. A program is a list of lines, with
   its labels among them; the machine is at the lines it still has to run, so it has
   ended when none are left, and a jump goes on behind a label. A `rep` line runs its
   instruction once and stays, as the processor does between two interrupts, until
   `ecx` is zero.

   Where an address lies is a parameter: `cell` takes a selector and an offset to a
   place of the memory, through segment bases alone (`segmented`) or through page
   tables as well. No access faults. Of the flags only ZF and DF are kept, the two
   that `jz` and the string instructions read.

   `Reaches` is total: the machine comes to a state with `Q`. Its rules are sequence
   (`Reaches.trans`), a counted loop (`Reaches.count`) and one for each kind of line.
   `copy` is the loop that moves one byte a turn; `copy_moveAtOnce` says when a move of
   several bytes at once is so many of its turns. -/
namespace X86

inductive Reg
  | eax | ecx | edx | ebx | esp | ebp | esi | edi
  deriving DecidableEq

inductive Seg
  | ds | es
  deriving DecidableEq

inductive Operand
  | imm (i : BitVec 32)
  | reg (r : Reg)

/-- Operands stand in AT&T order, the destination last. -/
inductive Instr
  | testl (o : Operand) (r : Reg)
  | movl (o : Operand) (r : Reg)
  | addl (o : Operand) (r : Reg)
  | subl (o : Operand) (r : Reg)
  | andl (o : Operand) (r : Reg)
  | shrl (i : Nat) (r : Reg)
  /-- From the byte at `(a)` to the low byte of `r`. -/
  | movbLoad (a r : Reg)
  /-- From the low byte of `r` to the byte at `(a)`. -/
  | movbStore (r a : Reg)
  /-- From a segment register to the low word of `r`. -/
  | movwOf (g : Seg) (r : Reg)
  /-- From the low word of `r` to a segment register. -/
  | movwTo (r : Reg) (g : Seg)
  | cld
  | movsl

inductive Line (Λ : Type)
  | label (l : Λ)
  | instr (i : Instr)
  | rep (i : Instr)
  | jz (l : Λ)
  | jmp (l : Λ)

structure Cpu (α : Type) where
  reg : Reg → BitVec 32
  seg : Seg → BitVec 16
  zf : Bool
  df : Bool
  mem : α → UInt8

/-- The lines left and the processor. -/
abbrev Config (Λ α : Type) := List (Line Λ) × Cpu α

/-- The lines behind a label. -/
def behind {Λ : Type} [DecidableEq Λ] (l : Λ) : List (Line Λ) → Option (List (Line Λ))
  | [] => none
  | .label l' :: rest => if l' = l then some rest else behind l rest
  | _ :: rest => behind l rest

/-- A selector's base, and an offset from it. -/
def segmented (base : BitVec 16 → BitVec 32) (g : BitVec 16) (a : BitVec 32) : BitVec 32 := base g + a

theorem segmented_inj {base : BitVec 16 → BitVec 32} {g : BitVec 16} {a b : BitVec 32} :
    segmented base g a = segmented base g b ↔ a = b := by
  simp [segmented]

namespace Cpu
variable {α : Type}

def set (s : Cpu α) (r : Reg) (v : BitVec 32) : Cpu α :=
  { s with reg := Function.update s.reg r v }

/-- A result goes to its register and its zeroness to ZF. -/
def result (s : Cpu α) (r : Reg) (v : BitVec 32) : Cpu α := { s.set r v with zf := v == 0 }

def value (s : Cpu α) : Operand → BitVec 32
  | .imm i => i
  | .reg r => s.reg r

variable {s : Cpu α} {r r' : Reg} {v : BitVec 32}

@[simp] theorem set_reg : (s.set r v).reg r' = if r' = r then v else s.reg r' := Function.update_apply ..

@[simp] theorem set_seg : (s.set r v).seg = s.seg := rfl

@[simp] theorem set_mem : (s.set r v).mem = s.mem := rfl

@[simp] theorem set_zf : (s.set r v).zf = s.zf := rfl

@[simp] theorem set_df : (s.set r v).df = s.df := rfl

@[simp] theorem value_imm {i : BitVec 32} : s.value (.imm i) = i := rfl

@[simp] theorem value_reg : s.value (.reg r) = s.reg r := rfl

end Cpu

section
variable {Λ α : Type} [DecidableEq Λ] [DecidableEq α] (cell : BitVec 16 → BitVec 32 → α)

/-- `n` bytes are copied one by one, from the low address up. -/
def copy (v : BitVec 32 → α) (m : α → UInt8) (dest src : BitVec 32) (n : Nat) : α → UInt8 :=
  (List.range n).foldl
    (fun m i => Function.update m (v (dest + BitVec.ofNat 32 i)) (m (v (src + BitVec.ofNat 32 i)))) m

/-- `n` bytes are taken at once and then stored. -/
def moveAtOnce (vd vs : BitVec 32 → α) (m : α → UInt8) (dest src : BitVec 32) (n : Nat) : α → UInt8 :=
  (List.range n).foldl
    (fun m' i => Function.update m' (vd (dest + BitVec.ofNat 32 i)) (m (vs (src + BitVec.ofNat 32 i)))) m

def Instr.exec (s : Cpu α) : Instr → Cpu α
  | testl o r => { s with zf := s.value o &&& s.reg r == 0 }
  | movl o r => s.set r (s.value o)
  | addl o r => s.result r (s.reg r + s.value o)
  | subl o r => s.result r (s.reg r - s.value o)
  | andl o r => s.result r (s.reg r &&& s.value o)
  -- a count of zero leaves the flags
  | shrl i r => if i % 32 = 0 then s else s.result r (s.reg r >>> (i % 32))
  | movbLoad a r =>
    s.set r ((s.reg r).extractLsb' 8 24 ++ (s.mem (cell (s.seg .ds) (s.reg a))).toBitVec)
  | movbStore r a =>
    { s with mem := Function.update s.mem (cell (s.seg .ds) (s.reg a)) ⟨(s.reg r).setWidth 8⟩ }
  | movwOf g r => s.set r ((s.reg r).extractLsb' 16 16 ++ s.seg g)
  | movwTo r g => { s with seg := Function.update s.seg g ((s.reg r).setWidth 16) }
  | cld => { s with df := false }
  | movsl =>
    let delta : BitVec 32 := if s.df then -4 else 4
    let m := moveAtOnce (cell (s.seg .es)) (cell (s.seg .ds)) s.mem (s.reg .edi) (s.reg .esi) 4
    ({ s with mem := m }.set .esi (s.reg .esi + delta)).set .edi (s.reg .edi + delta)

/-- One step; `none` at the end, and at a jump to no label. -/
def step (prog : List (Line Λ)) : Config Λ α → Option (Config Λ α)
  | ([], _) => none
  | (.label _ :: rest, s) => some (rest, s)
  | (.instr i :: rest, s) => some (rest, i.exec cell s)
  | (.rep i :: rest, s) =>
    if s.reg .ecx = 0 then some (rest, s)
    else
      let t := i.exec cell s
      some (.rep i :: rest, t.set .ecx (t.reg .ecx - 1))
  | (.jz l :: rest, s) => if s.zf then (behind l prog).map (·, s) else some (rest, s)
  | (.jmp l :: _, s) => (behind l prog).map (·, s)

end

theorem low_byte (x : BitVec 24) (b : BitVec 8) : BitVec.setWidth 8 (x ++ b) = b := by
  rw [BitVec.setWidth_append, dif_pos (le_refl _), BitVec.setWidth_eq]

theorem low_word (x b : BitVec 16) : BitVec.setWidth 16 (x ++ b) = b := by
  rw [BitVec.setWidth_append, dif_pos (le_refl _), BitVec.setWidth_eq]

theorem add_ofNat_add (a : BitVec 32) (j k : Nat) :
    a + BitVec.ofNat 32 j + BitVec.ofNat 32 k = a + BitVec.ofNat 32 (j + k) := by
  rw [BitVec.add_assoc, ← BitVec.ofNat_add]

/-! ## Runs -/

section
variable {σ : Type} {f : σ → Option σ} {c c' : σ} {P Q : σ → Prop}

def runFor (f : σ → Option σ) : Nat → σ → Option σ
  | 0, c => some c
  | k + 1, c => (f c).bind (runFor f k)

/-- The machine comes from `c` to a state with `Q`. -/
def Reaches (f : σ → Option σ) (c : σ) (Q : σ → Prop) : Prop := ∃ k c', runFor f k c = some c' ∧ Q c'

theorem runFor_add (j k : Nat) : runFor f (j + k) c = (runFor f j c).bind (runFor f k) := by
  induction j generalizing c with
  | zero => rw [Nat.zero_add]; rfl
  | succ j ih =>
    rw [Nat.succ_add, runFor, runFor, Option.bind_assoc]
    exact congrArg _ (funext fun c => ih)

theorem Reaches.here (h : Q c) : Reaches f c Q := ⟨0, c, rfl, h⟩

theorem Reaches.trans (h : Reaches f c P) (hP : ∀ c', P c' → Reaches f c' Q) : Reaches f c Q := by
  obtain ⟨j, c', hj, hp⟩ := h
  obtain ⟨k, c'', hk, hq⟩ := hP c' hp
  refine ⟨j + k, c'', ?_, hq⟩
  rw [runFor_add, hj, Option.bind_some, hk]

theorem Reaches.next (hstep : f c = some c') (h : Reaches f c' Q) : Reaches f c Q := by
  obtain ⟨k, d, hk, hq⟩ := h
  exact ⟨k + 1, d, by rw [runFor, hstep, Option.bind_some, hk], hq⟩

theorem Reaches.count {S : Nat → σ → Prop} {n : Nat} (h : S 0 c)
    (hstep : ∀ i c, i < n → S i c → Reaches f c (S (i + 1))) : Reaches f c (S n) := by
  induction n with
  | zero => exact Reaches.here h
  | succ n ih =>
    have hn := ih fun i c hi => hstep i c (by omega)
    exact hn.trans fun c' hc => hstep n c' (by omega) hc

end

/-! ## Lines -/

section
variable {Λ α : Type} [DecidableEq Λ] [DecidableEq α] {cell : BitVec 16 → BitVec 32 → α}
variable {prog rest lines : List (Line Λ)} {s : Cpu α} {l : Λ} {Q : Config Λ α → Prop}

theorem Reaches.label (h : Reaches (step cell prog) (rest, s) Q) :
    Reaches (step cell prog) (.label l :: rest, s) Q := Reaches.next rfl h

theorem Reaches.block (is : List Instr)
    (h : Reaches (step cell prog) (rest, is.foldl (Instr.exec cell) s) Q) :
    Reaches (step cell prog) (is.map .instr ++ rest, s) Q := by
  induction is generalizing s with
  | nil => exact h
  | cons i is ih => exact Reaches.next rfl (ih h)

theorem Reaches.jmp (hl : behind l prog = some lines) (h : Reaches (step cell prog) (lines, s) Q) :
    Reaches (step cell prog) (.jmp l :: rest, s) Q := by
  refine Reaches.next ?_ h
  rw [step, hl, Option.map_some]

theorem Reaches.jz (hl : behind l prog = some lines)
    (hjump : s.zf = true → Reaches (step cell prog) (lines, s) Q)
    (hnext : s.zf = false → Reaches (step cell prog) (rest, s) Q) :
    Reaches (step cell prog) (.jz l :: rest, s) Q := by
  cases hz : s.zf with
  | true =>
    refine Reaches.next ?_ (hjump hz)
    rw [step, if_pos hz, hl, Option.map_some]
  | false =>
    refine Reaches.next ?_ (hnext hz)
    rw [step, if_neg (by simp [hz])]

/-- The head of a loop that counts down: the register is tested, and at zero it is left. -/
theorem Reaches.testZero {r : Reg} {k : Nat} (hl : behind l prog = some lines)
    (hk : s.reg r = BitVec.ofNat 32 k) (hlt : k < 2 ^ 32)
    (hzero : k = 0 → Reaches (step cell prog) (lines, Instr.exec cell s (.testl (.reg r) r)) Q)
    (hmore : k ≠ 0 → Reaches (step cell prog) (rest, Instr.exec cell s (.testl (.reg r) r)) Q) :
    Reaches (step cell prog) (.instr (.testl (.reg r) r) :: .jz l :: rest, s) Q := by
  have htest : (Instr.exec cell s (.testl (.reg r) r)).zf = true ↔ k = 0 := by
    simp only [Instr.exec, Cpu.value_reg, hk, BitVec.and_self, beq_iff_eq]
    bv_omega
  apply Reaches.block [.testl (.reg r) r]
  apply Reaches.jz hl
  · intro hz
    exact hzero (htest.mp hz)
  · intro hz
    apply hmore
    intro h0
    exact absurd (htest.mpr h0) (by simpa using hz)

/-- A repeated instruction that leaves the count alone: `S i` holds after `i` turns. -/
theorem Reaches.rep {i : Instr} {S : Nat → Cpu α → Prop} {n : Nat} (hn : n < 2 ^ 32)
    (hcount : s.reg .ecx = BitVec.ofNat 32 n) (h : S 0 s)
    (hkeep : ∀ s : Cpu α, (i.exec cell s).reg .ecx = s.reg .ecx)
    (hturn : ∀ k s v, k < n → S k s → S (k + 1) ((i.exec cell s).set .ecx v)) :
    Reaches (step cell prog) (.rep i :: rest, s) fun c => c.1 = rest ∧ S n c.2 := by
  have hloop : Reaches (step cell prog) (.rep i :: rest, s) fun c =>
      c.1 = .rep i :: rest ∧ S n c.2 ∧ c.2.reg .ecx = BitVec.ofNat 32 (n - n) := by
    apply Reaches.count (S := fun k (c : Config Λ α) =>
      c.1 = .rep i :: rest ∧ S k c.2 ∧ c.2.reg .ecx = BitVec.ofNat 32 (n - k))
    · exact ⟨rfl, h, hcount⟩
    · intro k c hk hc
      obtain ⟨lines, s⟩ := c
      obtain ⟨rfl, hS, hecx⟩ := hc
      have hne : s.reg .ecx ≠ 0#32 := by
        simp only at hecx
        bv_omega
      have hcount : s.reg .ecx - 1 = BitVec.ofNat 32 (n - (k + 1)) := by
        rw [hecx]
        bv_omega
      have hstep : step cell prog (.rep i :: rest, s) =
          some (.rep i :: rest, (i.exec cell s).set .ecx (s.reg .ecx - 1)) := by
        simp [step, hne, hkeep]
      refine Reaches.next hstep (Reaches.here ⟨rfl, hturn k s _ hk hS, ?_⟩)
      rw [Cpu.set_reg, if_pos rfl, hcount]
  refine hloop.trans fun c hc => ?_
  obtain ⟨lines, s⟩ := c
  obtain ⟨rfl, hS, hecx⟩ := hc
  have hzero : s.reg .ecx = 0#32 := by simpa using hecx
  have hstep : step cell prog (.rep i :: rest, s) = some (rest, s) := by
    simp [step, hzero]
  exact Reaches.next hstep (Reaches.here ⟨rfl, hS⟩)

end

/-! ## Copies -/

section
variable {α : Type} {v : BitVec 32 → α} {m : α → UInt8} {dest src : BitVec 32} {n : Nat}

/-- No cell of the destination is one of the source. -/
def CellsApart (v : BitVec 32 → α) (dest src : BitVec 32) (n : Nat) : Prop :=
  ∀ i j, i < n → j < n → v (dest + BitVec.ofNat 32 i) ≠ v (src + BitVec.ofNat 32 j)

theorem CellsApart.mono {k : Nat} (h : CellsApart v dest src n) (hk : k ≤ n) : CellsApart v dest src k :=
  fun i j hi hj => h i j (by omega) (by omega)

variable [DecidableEq α]

theorem copy_succ : copy v m dest src (n + 1) =
    Function.update (copy v m dest src n) (v (dest + BitVec.ofNat 32 n))
      (copy v m dest src n (v (src + BitVec.ofNat 32 n))) := by
  rw [copy, List.range_succ, List.foldl_append]
  rfl

theorem copy_outside {a : α} (h : ∀ i, i < n → v (dest + BitVec.ofNat 32 i) ≠ a) :
    copy v m dest src n a = m a := by
  induction n with
  | zero => rfl
  | succ n ih =>
    rw [copy_succ, Function.update_of_ne (h n (by omega)).symm]
    exact ih fun i hi => h i (by omega)

/-- Where the two ranges are apart, the copy lays down what the source held. -/
theorem copy_inside (h : CellsApart v dest src n) (hinj : ∀ i j, i < n → j < n →
    v (dest + BitVec.ofNat 32 i) = v (dest + BitVec.ofNat 32 j) → i = j) {i : Nat} (hi : i < n) :
    copy v m dest src n (v (dest + BitVec.ofNat 32 i)) = m (v (src + BitVec.ofNat 32 i)) := by
  induction n with
  | zero => omega
  | succ n ih =>
    have hsrc : copy v m dest src n (v (src + BitVec.ofNat 32 n)) = m (v (src + BitVec.ofNat 32 n)) :=
      copy_outside fun j hj => h j n (by omega) (by omega)
    rw [copy_succ, hsrc]
    rcases Nat.lt_succ_iff_lt_or_eq.mp hi with hlt | rfl
    · have hne : v (dest + BitVec.ofNat 32 i) ≠ v (dest + BitVec.ofNat 32 n) := by
        intro he
        have := hinj i n (by omega) (by omega) he
        omega
      rw [Function.update_of_ne hne]
      exact ih (h.mono (by omega)) (fun i j hi hj => hinj i j (by omega) (by omega)) hlt
    · rw [Function.update_self]

theorem copy_add (j k : Nat) : copy v (copy v m dest src j) (dest + BitVec.ofNat 32 j)
    (src + BitVec.ofNat 32 j) k = copy v m dest src (j + k) := by
  induction k with
  | zero => rfl
  | succ k ih =>
    rw [copy_succ, ih, ← Nat.add_assoc, copy_succ, add_ofNat_add, add_ofNat_add]

/-- Bytes that are taken at once are those the loop finds, if it has not stored over them. -/
theorem copy_moveAtOnce (h : CellsApart v dest src n) :
    moveAtOnce v v m dest src n = copy v m dest src n := by
  induction n with
  | zero => rfl
  | succ n ih =>
    have hsrc : copy v m dest src n (v (src + BitVec.ofNat 32 n)) = m (v (src + BitVec.ofNat 32 n)) :=
      copy_outside fun j hj => h j n (by omega) (by omega)
    rw [copy_succ, hsrc, ← ih (h.mono (by omega)), moveAtOnce, List.range_succ, List.foldl_append]
    rfl

end

end X86

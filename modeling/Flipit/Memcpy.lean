import Flipit.X86
import Flipit.Screen

/- `memcpy` (`lib.c`), as its `asm` block is written: bytes until the destination is
   aligned or the count is used up, double words, and the bytes left over. `Copied` is
   the state of all three loops, and each of them takes it on; what they reach is the
   byte loop of the library (`memcpy_reaches`), wherever the two ranges lie in different
   cells of the memory.

   The rest of the development uses `memcpy` by its effect. `memcpy_slice` is the one
   `read_data` has on a buffer, and `memcpy_copyPage` the one `term_visible_switch` has
   on the frames behind two pages. -/
namespace Flipit.Lib
open X86 Bytes

/-- The labels of the block. -/
inductive MemcpyLabel
  | memcpyTop | memcpyAligned | memcpyBottom | memcpyDone
  deriving DecidableEq

/-- The block; `al` is the low byte of `eax` and `dx` the low word of `edx`. -/
def memcpy : List (X86.Line MemcpyLabel) :=
  [ .label .memcpyTop,
    .instr (.testl (.reg .ecx) .ecx),
    .jz .memcpyDone,
    .instr (.testl (.imm 0x3) .edi),
    .jz .memcpyAligned,
    .instr (.movbLoad .esi .eax),
    .instr (.movbStore .eax .edi),
    .instr (.addl (.imm 1) .edi),
    .instr (.addl (.imm 1) .esi),
    .instr (.subl (.imm 1) .ecx),
    .jmp .memcpyTop,
    .label .memcpyAligned,
    .instr (.movwOf .ds .edx),
    .instr (.movwTo .edx .es),
    .instr (.movl (.reg .ecx) .edx),
    .instr (.shrl 2 .ecx),
    .instr (.andl (.imm 0x3) .edx),
    .instr .cld,
    .rep .movsl,
    .label .memcpyBottom,
    .instr (.testl (.reg .edx) .edx),
    .jz .memcpyDone,
    .instr (.movbLoad .esi .eax),
    .instr (.movbStore .eax .edi),
    .instr (.addl (.imm 1) .edi),
    .instr (.addl (.imm 1) .esi),
    .instr (.subl (.imm 1) .edx),
    .jmp .memcpyBottom,
    .label .memcpyDone ]

/-- The arguments in the registers the block names for them. -/
def memcpyArgs {α : Type} (s : Cpu α) (dest src n : BitVec 32) : Cpu α :=
  ((s.set .esi src).set .edi dest).set .ecx n

/-- The lines behind a label of `memcpy`. -/
def memcpyFrom (l : MemcpyLabel) : List (X86.Line MemcpyLabel) := (behind l memcpy).getD []

/-- The body of the two byte loops; `r` counts. -/
def moveByte (r : Reg) : List Instr :=
  [ .movbLoad .esi .eax, .movbStore .eax .edi, .addl (.imm 1) .edi, .addl (.imm 1) .esi,
    .subl (.imm 1) r ]

section
variable {α : Type} [DecidableEq α] {cell : BitVec 16 → BitVec 32 → α}
variable {g : BitVec 16} {m : α → UInt8} {dest src : BitVec 32} {j k n : Nat} {s : Cpu α}

/-- The first `j` bytes are copied and the two pointers stand behind them. -/
structure Copied (cell : BitVec 16 → BitVec 32 → α) (g : BitVec 16) (m : α → UInt8)
    (dest src : BitVec 32) (j : Nat) (s : Cpu α) : Prop where
  ds : s.seg .ds = g
  esi : s.reg .esi = src + BitVec.ofNat 32 j
  edi : s.reg .edi = dest + BitVec.ofNat 32 j
  mem : s.mem = copy (cell g) m dest src j

theorem behind_memcpy (l : MemcpyLabel) : behind l memcpy = some (memcpyFrom l) := by
  cases l <;> rfl

theorem Copied.moveByte {r : Reg} (h : Copied cell g m dest src j s)
    (hr : Reg.eax ≠ r ∧ Reg.esi ≠ r ∧ Reg.edi ≠ r) :
    Copied cell g m dest src (j + 1) ((moveByte r).foldl (Instr.exec cell) s) ∧
      ((Lib.moveByte r).foldl (Instr.exec cell) s).reg r = s.reg r - 1 := by
  obtain ⟨hds, hesi, hedi, hmem⟩ := h
  obtain ⟨h1, h2, h3⟩ := hr
  refine ⟨⟨?_, ?_, ?_, ?_⟩, ?_⟩
  · simpa [Lib.moveByte, Instr.exec, Cpu.result] using hds
  · simp [Lib.moveByte, Instr.exec, Cpu.result, hesi, h2, add_ofNat_add]
  · simp [Lib.moveByte, Instr.exec, Cpu.result, hedi, h3, add_ofNat_add]
  · simp [Lib.moveByte, Instr.exec, Cpu.result, hds, hesi, hedi, hmem, copy_succ, low_byte]
  · simp [Lib.moveByte, Instr.exec, Cpu.result, h1.symm, h2.symm, h3.symm]

theorem Copied.testl {o : Operand} {r : Reg} (h : Copied cell g m dest src j s) :
    Copied cell g m dest src j (Instr.exec cell s (.testl o r)) := ⟨h.ds, h.esi, h.edi, h.mem⟩

theorem Copied.bottom (h : Copied cell g m dest src j s) (hk : s.reg .edx = BitVec.ofNat 32 k)
    (hlt : k < 2 ^ 32) : Reaches (step cell memcpy) (memcpyFrom .memcpyBottom, s) fun c =>
      c.1 = [] ∧ Copied cell g m dest src (j + k) c.2 := by
  -- on the bytes left
  induction k generalizing j s with
  | zero =>
    apply Reaches.testZero (behind_memcpy _) hk hlt
    · intro _
      exact Reaches.here ⟨rfl, h.testl⟩
    · intro h0
      exact absurd rfl h0
  | succ k ih =>
    apply Reaches.testZero (behind_memcpy _) hk hlt
    · intro h0
      omega
    · intro _
      obtain ⟨hnext, hedx⟩ := h.testl.moveByte (r := .edx) (by decide)
      have hk' : s.reg .edx - 1 = BitVec.ofNat 32 k := by
        rw [hk]
        bv_omega
      have hsum : j + (k + 1) = j + 1 + k := by omega
      rw [hsum]
      apply Reaches.block (Lib.moveByte .edx)
      apply Reaches.jmp (behind_memcpy _)
      exact ih hnext (hedx.trans hk') (by omega)

/-- The state of the double word loop after `i` turns; the `r` bytes left over wait in `edx`. -/
structure CopiedWords (cell : BitVec 16 → BitVec 32 → α) (g : BitVec 16) (m : α → UInt8)
    (dest src : BitVec 32) (j r i : Nat) (s : Cpu α) : Prop where
  copied : Copied cell g m dest src (j + 4 * i) s
  es : s.seg .es = g
  df : s.df = false
  edx : s.reg .edx = BitVec.ofNat 32 r

theorem CopiedWords.movsl {r i : Nat} {v : BitVec 32} (h : CopiedWords cell g m dest src j r i s)
    (hi : j + 4 * i + 4 ≤ n) (hapart : CellsApart (cell g) dest src n) :
    CopiedWords cell g m dest src j r (i + 1) ((Instr.exec cell s .movsl).set .ecx v) := by
  obtain ⟨⟨hds, hesi, hedi, hmem⟩, hes, hdf, hedx⟩ := h
  have hfour : CellsApart (cell g) (dest + BitVec.ofNat 32 (j + 4 * i))
      (src + BitVec.ofNat 32 (j + 4 * i)) 4 := by
    intro a b ha hb
    rw [add_ofNat_add, add_ofNat_add]
    exact hapart _ _ (by omega) (by omega)
  have hsum : j + 4 * (i + 1) = j + 4 * i + 4 := by omega
  refine ⟨⟨?_, ?_, ?_, ?_⟩, ?_, ?_, ?_⟩
  · simpa [Instr.exec] using hds
  · simp [Instr.exec, hesi, hdf, hsum, add_ofNat_add]
  · simp [Instr.exec, hedi, hdf, hsum, add_ofNat_add]
  · simp only [Instr.exec, Cpu.set_mem]
    rw [hds, hes, hesi, hedi, hmem, copy_moveAtOnce hfour, copy_add, hsum]
  · simpa [Instr.exec] using hes
  · simpa [Instr.exec] using hdf
  · simpa [Instr.exec] using hedx

/-- What stands between `.memcpy_aligned` and the double words. -/
def splitCount : List Instr :=
  [ .movwOf .ds .edx, .movwTo .edx .es, .movl (.reg .ecx) .edx, .shrl 2 .ecx, .andl (.imm 0x3) .edx,
    .cld ]

theorem shrl_two (hlt : k < 2 ^ 32) : BitVec.ofNat 32 k >>> 2 = BitVec.ofNat 32 (k / 4) := by
  apply BitVec.eq_of_toNat_eq
  rw [BitVec.toNat_ushiftRight, Nat.shiftRight_eq_div_pow, BitVec.toNat_ofNat, BitVec.toNat_ofNat]
  omega

theorem andl_three (hlt : k < 2 ^ 32) : BitVec.ofNat 32 k &&& 3#32 = BitVec.ofNat 32 (k % 4) := by
  apply BitVec.eq_of_toNat_eq
  have hmask : k &&& 3 = k % 4 := Nat.and_two_pow_sub_one_eq_mod k 2
  rw [BitVec.toNat_and, BitVec.toNat_ofNat, BitVec.toNat_ofNat, BitVec.toNat_ofNat,
    Nat.mod_eq_of_lt hlt, hmask]
  omega

/-- The count is split in double words and bytes, and the string moves go up in `ds`. -/
theorem Copied.splitCount (h : Copied cell g m dest src j s) (hk : s.reg .ecx = BitVec.ofNat 32 k)
    (hlt : k < 2 ^ 32) :
    CopiedWords cell g m dest src j (k % 4) 0 (Lib.splitCount.foldl (Instr.exec cell) s) ∧
      (Lib.splitCount.foldl (Instr.exec cell) s).reg .ecx = BitVec.ofNat 32 (k / 4) := by
  obtain ⟨hds, hesi, hedi, hmem⟩ := h
  refine ⟨⟨⟨?_, ?_, ?_, ?_⟩, ?_, ?_, ?_⟩, ?_⟩
  · simpa [Lib.splitCount, Instr.exec, Cpu.result] using hds
  · simpa [Lib.splitCount, Instr.exec, Cpu.result] using hesi
  · simpa [Lib.splitCount, Instr.exec, Cpu.result] using hedi
  · simpa [Lib.splitCount, Instr.exec, Cpu.result] using hmem
  · simp [Lib.splitCount, Instr.exec, Cpu.result, low_word, hds]
  · simp [Lib.splitCount, Instr.exec]
  · simp [Lib.splitCount, Instr.exec, Cpu.result, hk, andl_three hlt]
  · simp [Lib.splitCount, Instr.exec, Cpu.result, hk, shrl_two hlt]

theorem Copied.aligned (h : Copied cell g m dest src j s) (hk : s.reg .ecx = BitVec.ofNat 32 k)
    (hlt : k < 2 ^ 32) (hapart : CellsApart (cell g) dest src (j + k)) :
    Reaches (step cell memcpy) (memcpyFrom .memcpyAligned, s) fun c =>
      c.1 = [] ∧ Copied cell g m dest src (j + k) c.2 := by
  obtain ⟨hsplit, hecx⟩ := h.splitCount hk hlt
  apply Reaches.block Lib.splitCount
  refine Reaches.trans (Reaches.rep (by omega) hecx hsplit (fun s => ?_) fun i t v hi ht => ?_) fun c hc => ?_
  · simp [Instr.exec]
  · exact ht.movsl (by omega) hapart
  · obtain ⟨lines, t⟩ := c
    obtain ⟨rfl, hwords⟩ := hc
    have hbytes := hwords.copied.bottom hwords.edx (by omega)
    rw [show j + 4 * (k / 4) + k % 4 = j + k by omega] at hbytes
    exact Reaches.label hbytes

theorem Copied.top (h : Copied cell g m dest src j s) (hk : s.reg .ecx = BitVec.ofNat 32 k)
    (hlt : k < 2 ^ 32) (hapart : CellsApart (cell g) dest src (j + k)) :
    Reaches (step cell memcpy) (memcpyFrom .memcpyTop, s) fun c =>
      c.1 = [] ∧ Copied cell g m dest src (j + k) c.2 := by
  -- on the bytes left: none, an aligned destination, or one more byte
  induction k generalizing j s with
  | zero =>
    apply Reaches.testZero (behind_memcpy _) hk hlt
    · intro _
      exact Reaches.here ⟨rfl, h.testl⟩
    · intro h0
      exact absurd rfl h0
  | succ k ih =>
    apply Reaches.testZero (behind_memcpy _) hk hlt
    · intro h0
      omega
    · intro _
      apply Reaches.block [.testl (.imm 0x3) .edi]
      apply Reaches.jz (behind_memcpy _)
      · intro _
        exact h.testl.testl.aligned hk hlt hapart
      · intro _
        obtain ⟨hnext, hecx⟩ := h.testl.testl.moveByte (r := .ecx) (by decide)
        have hk' : s.reg .ecx - 1 = BitVec.ofNat 32 k := by
          rw [hk]
          bv_omega
        have hsum : j + (k + 1) = j + 1 + k := by omega
        rw [hsum] at hapart ⊢
        apply Reaches.block (Lib.moveByte .ecx)
        apply Reaches.jmp (behind_memcpy _)
        exact ih hnext (hecx.trans hk') (by omega) hapart

theorem memcpy_reaches (s : Cpu α) {n : BitVec 32} (hapart : CellsApart (cell (s.seg .ds)) dest src n.toNat) :
    Reaches (step cell memcpy) (memcpy, memcpyArgs s dest src n) fun c =>
      c.1 = [] ∧ c.2.mem = copy (cell (s.seg .ds)) s.mem dest src n.toNat := by
  have hstart : Copied cell (s.seg .ds) s.mem dest src 0 (memcpyArgs s dest src n) := by
    refine ⟨rfl, ?_, ?_, rfl⟩
    · simp [memcpyArgs]
    · simp [memcpyArgs]
  have hcount : (memcpyArgs s dest src n).reg .ecx = BitVec.ofNat 32 n.toNat := by simp [memcpyArgs]
  have hend := hstart.top hcount n.isLt (by rwa [Nat.zero_add])
  apply Reaches.label
  refine hend.trans fun c hc => Reaches.here ⟨hc.1, ?_⟩
  rw [hc.2.mem, Nat.zero_add]

end

/-! ## Segments -/

section
variable {dest src n : BitVec 32} {i j : Nat}

theorem toNat_offset (h : dest.toNat + n.toNat ≤ 2 ^ 32) (hi : i < n.toNat) :
    (dest + BitVec.ofNat 32 i).toNat = dest.toNat + i := by
  bv_omega

/-- Whatever the segment's base, a byte of a range lies at no other offset. -/
theorem segmented_offset {base : BitVec 16 → BitVec 32} {g : BitVec 16} {a : BitVec 32}
    (h : dest.toNat + n.toNat ≤ 2 ^ 32) (hi : i < n.toNat)
    (he : segmented base g (dest + BitVec.ofNat 32 i) = segmented base g a) : a.toNat = dest.toNat + i := by
  rw [← segmented_inj.mp he]
  exact toNat_offset h hi

/-- For ranges that neither wrap nor overlap the block ends with what the byte loop leaves:
the source's bytes in the destination and all others as they were. -/
theorem memcpy_copies (base : BitVec 16 → BitVec 32) (s : Cpu (BitVec 32))
    (hsrc : src.toNat + n.toNat ≤ 2 ^ 32) (hdest : dest.toNat + n.toNat ≤ 2 ^ 32)
    (hoff : src.toNat + n.toNat ≤ dest.toNat ∨ dest.toNat + n.toNat ≤ src.toNat) :
    let v := segmented base (s.seg .ds)
    Reaches (step (segmented base) memcpy) (memcpy, memcpyArgs s dest src n) fun c =>
      c.1 = [] ∧ c.2.mem = copy v s.mem dest src n.toNat ∧
      (∀ i, i < n.toNat → c.2.mem (v (dest + BitVec.ofNat 32 i)) = s.mem (v (src + BitVec.ofNat 32 i))) ∧
      ∀ a, ¬ (dest.toNat ≤ a.toNat ∧ a.toNat < dest.toNat + n.toNat) → c.2.mem (v a) = s.mem (v a) := by
  intro v
  have hapart : CellsApart v dest src n.toNat := by
    intro i j hi hj he
    have hsame := segmented_offset hdest hi he
    rw [toNat_offset hsrc hj] at hsame
    omega
  have hinj : ∀ i j, i < n.toNat → j < n.toNat →
      v (dest + BitVec.ofNat 32 i) = v (dest + BitVec.ofNat 32 j) → i = j := by
    intro i j hi hj he
    have hsame := segmented_offset hdest hi he
    rw [toNat_offset hdest hj] at hsame
    omega
  refine (memcpy_reaches s hapart).trans fun c hc => Reaches.here ?_
  obtain ⟨hend, hmem⟩ := hc
  rw [hmem]
  refine ⟨hend, rfl, fun i hi => copy_inside hapart hinj hi, fun a ha => ?_⟩
  apply copy_outside
  intro i hi he
  have hsame := segmented_offset hdest hi he
  omega

/-- Three bytes up to the boundary, one double word and three bytes behind it. -/
theorem memcpy_copies_unaligned :
    let s : Cpu (BitVec 32) :=
      { reg := fun _ => 0, seg := fun _ => 0x18, zf := false, df := true, mem := fun a => ⟨a.setWidth 8⟩ }
    let v := segmented (fun _ => 0) (s.seg .ds)
    Reaches (step (segmented fun _ => 0) memcpy) (memcpy, memcpyArgs s 0x1001 0x2002 10) fun c =>
      c.1 = [] ∧ c.2.mem = copy v s.mem 0x1001 0x2002 10 ∧
      (∀ i, i < 10 → c.2.mem (v (0x1001 + BitVec.ofNat 32 i)) = s.mem (v (0x2002 + BitVec.ofNat 32 i))) ∧
      ∀ a, ¬ (0x1001 ≤ a.toNat ∧ a.toNat < 0x1001 + 10) → c.2.mem (v a) = s.mem (v a) :=
  memcpy_copies (fun _ => 0) _ (by decide) (by decide) (by decide)

end

/-! ## Buffers and pages -/

section
variable {v : BitVec 32 → Nat} {m : Memory} {dest src : BitVec 32} {d e n : Nat}

theorem copy_consecutive (hd : ∀ i, i < n → v (dest + BitVec.ofNat 32 i) = d + i)
    (hs : ∀ i, i < n → v (src + BitVec.ofNat 32 i) = e + i) (hoff : e + n ≤ d ∨ d + n ≤ e) :
    CellsApart v dest src n ∧
      copy v m dest src n = fun a => if d ≤ a ∧ a < d + n then m (e + (a - d)) else m a := by
  have hapart : CellsApart v dest src n := by
    intro i j hi hj he
    rw [hd i hi, hs j hj] at he
    omega
  refine ⟨hapart, ?_⟩
  funext a
  by_cases ha : d ≤ a ∧ a < d + n
  · obtain ⟨i, rfl⟩ : ∃ i, a = d + i := ⟨a - d, by omega⟩
    have hi : i < n := by omega
    have hinside := copy_inside (m := m) hapart (fun i j hi hj he => by
      rw [hd i hi, hd j hj] at he
      omega) hi
    rw [if_pos ha, Nat.add_sub_cancel_left, ← hd i hi, hinside, hs i hi]
  · rw [if_neg ha]
    apply copy_outside
    intro i hi he
    rw [hd i hi] at he
    omega

theorem memcpy_slice (s : Cpu Nat) {dest src n : BitVec 32} (hsrc : src.toNat + n.toNat ≤ 2 ^ 32)
    (hdest : dest.toNat + n.toNat ≤ 2 ^ 32)
    (hoff : src.toNat + n.toNat ≤ dest.toNat ∨ dest.toNat + n.toNat ≤ src.toNat) :
    Reaches (step (fun _ => BitVec.toNat) memcpy) (memcpy, memcpyArgs s dest src n) fun c =>
      c.1 = [] ∧ c.2.mem = overlay s.mem dest.toNat (slice s.mem src.toNat n.toNat) := by
  obtain ⟨hapart, hcopy⟩ := copy_consecutive (v := BitVec.toNat) (m := s.mem)
    (fun i hi => toNat_offset hdest hi) (fun i hi => toNat_offset hsrc hi) hoff
  refine (memcpy_reaches s hapart).trans fun c hc => Reaches.here ⟨hc.1, ?_⟩
  rw [hc.2, hcopy]
  funext a
  rw [overlay, slice_length]
  split
  · next ha =>
    have hlt : a - dest.toNat < n.toNat := by omega
    have hbyte : (slice s.mem src.toNat n.toNat).getD (a - dest.toNat) 0 =
        s.mem (w32 (src.toNat + (a - dest.toNat))) := by
      simp [slice, hlt]
    rw [hbyte, w32_of_lt (by omega)]
  · rfl

end

/-- The kernel's addresses through the page tables, with flat segments; it is used on pages
that are mapped. -/
def mapped (p : Paging) (_ : BitVec 16) (a : BitVec 32) : Nat := (p.translate ⟨false, true⟩ a.toNat).getD 0

/-- Through two windows on different frames `memcpy` of a page is the page copy. -/
theorem memcpy_copyPage {p : Paging} {base base' frame frame' : Nat} (hd : Window p base frame)
    (hs : Window p base' frame') (hoff : frame' + 4096 ≤ frame ∨ frame + 4096 ≤ frame') (s : Cpu Nat) :
    Reaches (step (mapped p) memcpy)
      (memcpy, memcpyArgs s (BitVec.ofNat 32 base) (BitVec.ofNat 32 base') 4096) fun c =>
      c.1 = [] ∧ p.copyPage s.mem base base' = some c.2.mem := by
  have hview : ∀ {base frame : Nat}, Window p base frame → ∀ i, i < 4096 →
      mapped p (s.seg .ds) (BitVec.ofNat 32 base + BitVec.ofNat 32 i) = frame + i := by
    intro base frame hw i hi
    have hfits := hw.fits
    have haddr : (BitVec.ofNat 32 base + BitVec.ofNat 32 i).toNat = base + i := by
      rw [← BitVec.ofNat_add, BitVec.toNat_ofNat]
      exact Nat.mod_eq_of_lt (by omega)
    rw [mapped, haddr, hw.maps i hi true, Option.getD_some]
  obtain ⟨hapart, hcopy⟩ := copy_consecutive (m := s.mem) (hview hd) (hview hs) hoff
  refine (memcpy_reaches s hapart).trans fun c hc => Reaches.here ⟨hc.1, ?_⟩
  have hframe := hd.maps 0 (by omega) true
  have hframe' := hs.maps 0 (by omega) false
  rw [Nat.add_zero] at hframe hframe'
  rw [Paging.copyPage, hframe, Option.bind_some, hframe', Option.map_some, hc.2]
  exact congrArg some hcopy.symm

end Flipit.Lib

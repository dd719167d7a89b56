import Flipit.Filesystem

/- What `read_data` delivers, on a well-formed image.

   The copy loop keeps `offset + length` fixed and moves both. A request of 4096
   bytes or more is cut at the first block boundary and then goes block by block
   (`readDataLoop_aligned`), so it delivers the file's own bytes. A request below
   4096 bytes is never cut: it is one copy from the block of its first byte, and
   where it crosses the end of that block it goes on into the block that follows
   it in memory (`readDataLoop_eq`). `delivered_eq_iff` says when the two agree.

   Both the cut at the end of the file and the bound of the loop go by `offset + length`
   in 32 bits. `readData_due_iff` says for which requests the number of bytes is right
   all the same, over every pair of registers. -/
namespace Flipit
open Bytes

/-- Byte `p` of the file: byte `p % 4096` of data block `data_block_number[p / 4096]`. -/
def Fs.fileByte (fs : Fs) (inode p : Nat) : UInt8 :=
  fs.mem (w32 (fs.dataBlock inode (p / 4096) + p % 4096))

/-- Bytes `offset .. offset + n - 1` of the file. -/
def Fs.fileBytes (fs : Fs) (inode offset n : Nat) : List UInt8 :=
  (List.range n).map fun j => fs.fileByte inode (offset + j)

/-- The inode is one of the image's, its length fits its block list and its blocks
are blocks of the image. -/
structure Fs.FileOk (fs : Fs) (inode : Nat) : Prop where
  inode_lt : inode < fs.inodeCount
  length_le : fs.lengthInB inode ≤ 1023 * 4096
  block_lt : ∀ i, i < (fs.lengthInB inode + 4095) / 4096 →
    fs.dataBlockNumber inode i < fs.dataBlockCount

/-- A well-formed image: every regular file of the directory has a good inode. -/
structure Fs.WellFormed (fs : Fs) : Prop where
  files : ∀ i, i < 63 → (fs.dentry i).fileType = 2 → fs.FileOk (fs.dentry i).inode

/-- The `n` bytes a call that copies `n` bytes from `offset` on stores. -/
def Fs.delivered (fs : Fs) (inode offset n : Nat) : List UInt8 :=
  if n < 4096 then slice fs.mem (fs.dataBlock inode (offset / 4096) + offset % 4096) n
  else fs.fileBytes inode offset n

/-- A copy of `n` bytes from `offset` that is shorter than a block and crosses the
end of one finds, behind that block in memory, the file's next block (as far as
the copy goes). -/
def Fs.Whole (fs : Fs) (inode offset n : Nat) : Prop :=
  n < 4096 → ∀ j, j < offset % 4096 + n - 4096 →
    fs.mem (w32 (fs.dataBlock inode (offset / 4096) + 4096 + j)) =
      fs.mem (w32 (fs.dataBlock inode (offset / 4096 + 1) + j))

variable {fs : Fs} {inode : Nat}

theorem Fs.lengthInB_lt (fs : Fs) (inode : Nat) : fs.lengthInB inode < 2 ^ 32 := word_lt _ _

@[simp] theorem fileBytes_length (offset n : Nat) : (fs.fileBytes inode offset n).length = n := by
  simp [Fs.fileBytes]

@[simp] theorem delivered_length (offset n : Nat) : (fs.delivered inode offset n).length = n := by
  unfold Fs.delivered
  by_cases h : n < 4096
  · rw [if_pos h, slice_length]
  · rw [if_neg h, fileBytes_length]

theorem fileBytes_add (offset a b : Nat) :
    fs.fileBytes inode offset (a + b) =
      fs.fileBytes inode offset a ++ fs.fileBytes inode (offset + a) b := by
  simp only [Fs.fileBytes, List.range_add, List.map_append, List.map_map, List.append_cancel_left_eq]
  apply List.map_congr_left
  intro j _
  simp only [Function.comp_apply, Nat.add_assoc]

theorem slice_block {offset n : Nat} (hb : offset % 4096 + n ≤ 4096) :
    slice fs.mem (fs.dataBlock inode (offset / 4096) + offset % 4096) n =
      fs.fileBytes inode offset n := by
  apply List.map_congr_left
  intro j hj
  have hj := List.mem_range.mp hj
  unfold Fs.fileByte
  rw [show (offset + j) / 4096 = offset / 4096 by omega,
    show (offset + j) % 4096 = offset % 4096 + j by omega, Nat.add_assoc]

theorem readDataLoop_zero (fuel i offset : Nat) : readDataLoop fs inode fuel i offset 0 = [] := by
  induction fuel generalizing i offset with
  | zero => rfl
  | succ fuel ih =>
    simp only [readDataLoop]
    split
    · simpa using ih _ _
    · rfl

theorem readDataLoop_aligned {fuel i offset length : Nat}
    (ha : offset = i * 4096) (hL : offset + length ≤ fs.lengthInB inode)
    (hfuel : (offset + length) / 4096 + 1 - i ≤ fuel) :
    readDataLoop fs inode fuel i offset length = fs.fileBytes inode offset length := by
  have hlen := fs.lengthInB_lt inode
  -- on the turns left: the bound leaves one more turn for every block still to come
  induction fuel generalizing i offset length with
  | zero => omega
  | succ fuel ih =>
    have hi : i = offset / 4096 := by omega
    have hin : offset + length < 2 ^ 32 := by omega
    simp only [readDataLoop, w32_of_lt hin]
    rw [if_pos (by omega)]
    split
    · -- a whole block, then the rest from the next boundary
      rename_i hbig
      rw [show 4096 - offset % 4096 = 4096 by omega, w32_of_lt (by omega)]
      calc slice fs.mem (fs.dataBlock inode i + offset % 4096) 4096 ++
            readDataLoop fs inode fuel (i + 1) (offset + 4096) (length - 4096)
          = fs.fileBytes inode offset 4096 ++ fs.fileBytes inode (offset + 4096) (length - 4096) := by
            rw [hi, slice_block (by omega), ← hi, ih (by omega) (by omega) (by omega)]
        _ = fs.fileBytes inode offset (4096 + (length - 4096)) := (fileBytes_add offset 4096 _).symm
        _ = fs.fileBytes inode offset length := by rw [show 4096 + (length - 4096) = length by omega]
    · -- the tail lies inside block `i`
      rw [hi, slice_block (by omega), Nat.sub_self, readDataLoop_zero, List.append_nil]

theorem readDataLoop_eq {offset length : Nat} (hL : offset + length ≤ fs.lengthInB inode) :
    readDataLoop fs inode (w32 (offset + length) / 4096 + 1 - offset / 4096) (offset / 4096)
      offset length = fs.delivered inode offset length := by
  have hin : offset + length < 2 ^ 32 := hL.trans_lt (fs.lengthInB_lt inode)
  obtain ⟨fuel, hfuel⟩ : ∃ fuel, (offset + length) / 4096 + 1 - offset / 4096 = fuel + 1 :=
    ⟨(offset + length) / 4096 - offset / 4096, by omega⟩
  rw [w32_of_lt hin, hfuel]
  simp only [readDataLoop, w32_of_lt hin]
  rw [if_pos (by omega)]
  unfold Fs.delivered
  by_cases hs : length < 4096
  · rw [if_neg (by omega), if_pos hs, Nat.sub_self, readDataLoop_zero, List.append_nil]
  · -- up to the boundary, then from it
    rw [if_pos (by omega), if_neg hs, w32_of_lt (by omega)]
    generalize hr : 4096 - offset % 4096 = room
    calc slice fs.mem (fs.dataBlock inode (offset / 4096) + offset % 4096) room ++
          readDataLoop fs inode fuel (offset / 4096 + 1) (offset + room) (length - room)
        = fs.fileBytes inode offset room ++ fs.fileBytes inode (offset + room) (length - room) := by
          rw [slice_block (by omega), readDataLoop_aligned (by omega) (by omega) (by omega)]
      _ = fs.fileBytes inode offset (room + (length - room)) := (fileBytes_add offset room _).symm
      _ = fs.fileBytes inode offset length := by rw [show room + (length - room) = length by omega]

/-- The inodes `read_data` accepts: those of the image, and on an image without inodes, where
`inode_count - 1` wraps, every one. -/
def Fs.Readable (fs : Fs) (inode : Nat) : Prop := inode ≤ w32 (fs.inodeCount + (2 ^ 32 - 1))

theorem Fs.readable_iff (h : inode < 2 ^ 32) :
    fs.Readable inode ↔ inode < fs.inodeCount ∨ fs.inodeCount = 0 := by
  have hcount : fs.inodeCount < 2 ^ 32 := word_lt _ _
  simp only [Fs.Readable, w32]
  omega

theorem Fs.readable_of_lt (h : inode < fs.inodeCount) : fs.Readable inode := by
  have hcount : fs.inodeCount < 2 ^ 32 := word_lt _ _
  exact (Fs.readable_iff (h.trans hcount)).mpr (.inl h)

theorem readData_readable (hok : fs.Readable inode) {offset buf length : Nat} (hbuf : buf ≠ 0) :
    readData fs inode offset buf length =
      if offset ≥ fs.lengthInB inode then (0, [])
      else
        let n := if w32 (offset + length) > fs.lengthInB inode then fs.lengthInB inode - offset
          else length
        let bytes := readDataLoop fs inode (w32 (offset + n) / 4096 + 1 - offset / 4096)
          (offset / 4096) offset n
        (toInt32 (w32 bytes.length), bytes) := by
  apply if_neg
  unfold Fs.Readable at hok
  omega

/-- What `read_data` stores, for every request on an inode it accepts whose end is below
2^32: what is left of the file, at most `length` bytes. -/
theorem readData_bytes (hok : fs.Readable inode) {offset buf length : Nat} (hbuf : buf ≠ 0)
    (hw : offset + length < 2 ^ 32) :
    readData fs inode offset buf length =
      (toInt32 (min length (fs.lengthInB inode - offset)),
        fs.delivered inode offset (min length (fs.lengthInB inode - offset))) := by
  rw [readData_readable hok hbuf]
  by_cases hend : offset ≥ fs.lengthInB inode
  · rw [if_pos hend, show min length (fs.lengthInB inode - offset) = 0 by omega]
    simp [Fs.delivered, toInt32]
  · have hn : (if w32 (offset + length) > fs.lengthInB inode then fs.lengthInB inode - offset
        else length) = min length (fs.lengthInB inode - offset) := by
      rw [w32_of_lt hw]; split <;> omega
    rw [if_neg hend]
    simp only [hn]
    rw [readDataLoop_eq (by omega), delivered_length, w32_of_lt (by omega)]

/-- On a file no longer than its block list the value returned is the number of bytes stored. -/
theorem readData_eq (hlt : inode < fs.inodeCount) (hlen : fs.lengthInB inode ≤ 1023 * 4096)
    {offset buf length : Nat} (hbuf : buf ≠ 0) (hw : offset + length < 2 ^ 32) :
    readData fs inode offset buf length =
      (((min length (fs.lengthInB inode - offset) : Nat) : Int),
        fs.delivered inode offset (min length (fs.lengthInB inode - offset))) := by
  rw [readData_bytes (Fs.readable_of_lt hlt) hbuf hw, toInt32_of_lt (by omega)]

/-- A copy delivers the file's bytes exactly when the block it runs into is the
file's next one. -/
theorem delivered_eq_iff {offset n : Nat} :
    fs.delivered inode offset n = fs.fileBytes inode offset n ↔ fs.Whole inode offset n := by
  unfold Fs.delivered Fs.Whole
  by_cases hs : n < 4096
  · rw [if_pos hs]
    simp only [hs, forall_const, slice, Fs.fileBytes, List.map_inj_left, List.mem_range]
    constructor
    · -- the bytes behind the boundary, by their place in the copy
      intro h j hj
      have := h (4096 - offset % 4096 + j) (by omega)
      rw [show fs.dataBlock inode (offset / 4096) + offset % 4096 + (4096 - offset % 4096 + j) =
        fs.dataBlock inode (offset / 4096) + 4096 + j by omega] at this
      rw [this, Fs.fileByte, show (offset + (4096 - offset % 4096 + j)) / 4096 = offset / 4096 + 1 by omega,
        show (offset + (4096 - offset % 4096 + j)) % 4096 = j by omega]
    · intro h j hj
      by_cases hc : offset % 4096 + j < 4096
      · rw [Fs.fileByte, show (offset + j) / 4096 = offset / 4096 by omega,
          show (offset + j) % 4096 = offset % 4096 + j by omega, Nat.add_assoc]
      · have := h (offset % 4096 + j - 4096) (by omega)
        rw [show fs.dataBlock inode (offset / 4096) + 4096 + (offset % 4096 + j - 4096) =
          fs.dataBlock inode (offset / 4096) + offset % 4096 + j by omega] at this
        rw [this, Fs.fileByte, show (offset + j) / 4096 = offset / 4096 + 1 by omega,
          show (offset + j) % 4096 = offset % 4096 + j - 4096 by omega]
  · simp [hs]

/-! ## The number of bytes, over all 32-bit requests -/

/-- The bytes a read should move: none from the end of the file on, before it what is left,
at most `length`. -/
def Fs.due (fs : Fs) (inode offset length : Nat) : Nat :=
  if offset ≥ fs.lengthInB inode then 0 else min length (fs.lengthInB inode - offset)

/-- Where `offset + length` wraps, the sum is below `offset`: the length is not cut, and the
loop is left at once, or after the rest of one block where the sum wraps into the block it
started in. -/
theorem readData_wrapped (hok : fs.Readable inode) {offset buf length : Nat} (hbuf : buf ≠ 0)
    (hend : offset < fs.lengthInB inode) (hl : length < 2 ^ 32) (hw : 2 ^ 32 ≤ offset + length) :
    ∃ n, (readData fs inode offset buf length).1 = ((n : Nat) : Int) ∧
      (readData fs inode offset buf length).2.length = n ∧
      n = if (offset + length - 2 ^ 32) / 4096 = offset / 4096 then 4096 - offset % 4096 else 0 := by
  have hlen := fs.lengthInB_lt inode
  have hsum : w32 (offset + length) = offset + length - 2 ^ 32 := by
    rw [w32, Nat.mod_eq_sub_mod hw, Nat.mod_eq_of_lt (by omega)]
  rw [readData_readable hok hbuf, if_neg (by omega)]
  simp only [hsum, if_neg (show ¬ offset + length - 2 ^ 32 > fs.lengthInB inode by omega)]
  by_cases hsame : (offset + length - 2 ^ 32) / 4096 = offset / 4096
  · -- one turn, and the index has passed the bound
    rw [hsame, Nat.add_sub_cancel_left]
    simp only [readDataLoop, hsum, hsame, le_refl, if_true]
    rw [if_pos (by omega), List.append_nil, slice_length, w32_of_lt (by omega),
      toInt32_of_lt (by omega)]
    exact ⟨_, rfl, rfl, rfl⟩
  · rw [if_neg hsame, show (offset + length - 2 ^ 32) / 4096 + 1 - offset / 4096 = 0 by omega]
    exact ⟨0, rfl, rfl, rfl⟩

/-- On an inode it accepts, `read_data` with a length that is a non-negative `int32_t` returns a
count, never -1. -/
theorem readData_ret_nonneg (hok : fs.Readable inode) {offset buf length : Nat} (hbuf : buf ≠ 0)
    (hl : length < 2 ^ 31) : 0 ≤ (readData fs inode offset buf length).1 := by
  by_cases hw : offset + length < 2 ^ 32
  · rw [readData_bytes hok hbuf hw, toInt32_of_lt (by omega)]
    exact Int.natCast_nonneg _
  · by_cases hend : offset < fs.lengthInB inode
    · obtain ⟨n, hret, -, -⟩ := readData_wrapped hok hbuf hend (hl.trans (by decide)) (by omega)
      rw [hret]
      exact Int.natCast_nonneg n
    · have hzero : (readData fs inode offset buf length).1 = 0 := by
        rw [readData_readable hok hbuf, if_pos (by omega)]
      exact Int.le_of_eq hzero.symm

/-- The value returned and the number of bytes stored are what is due exactly where the sum
does not wrap, where nothing is due, and where it wraps into the block of the first byte and
that block is the file's last, and full. -/
theorem readData_due_iff (hlt : inode < fs.inodeCount) (hlen : fs.lengthInB inode ≤ 1023 * 4096)
    {offset buf length : Nat} (hbuf : buf ≠ 0) (ho : offset < 2 ^ 32) (hl : length < 2 ^ 32) :
    ((readData fs inode offset buf length).1 = fs.due inode offset length ∧
        (readData fs inode offset buf length).2.length = fs.due inode offset length) ↔
      fs.lengthInB inode ≤ offset ∨ offset + length < 2 ^ 32 ∨
        ((offset + length - 2 ^ 32) / 4096 = offset / 4096 ∧
          fs.lengthInB inode = (offset / 4096 + 1) * 4096) := by
  by_cases hend : fs.lengthInB inode ≤ offset
  · rw [readData_readable (Fs.readable_of_lt hlt) hbuf, Fs.due, if_pos hend, if_pos hend]
    simp [hend]
  · rw [Fs.due, if_neg hend]
    by_cases hw : offset + length < 2 ^ 32
    · rw [readData_eq hlt hlen hbuf hw]
      exact iff_of_true ⟨rfl, delivered_length ..⟩ (.inr (.inl hw))
    · obtain ⟨n, hret, hcount, hn⟩ := readData_wrapped (Fs.readable_of_lt hlt) hbuf
        (Nat.lt_of_not_le hend) hl (by omega)
      rw [hret, hcount]
      split at hn <;> omega

theorem readData_due_iff_data :
    ((readData smallFs 1 4096 1 100).1 = smallFs.due 1 4096 100 ∧
        (readData smallFs 1 4096 1 100).2.length = smallFs.due 1 4096 100) ↔
      smallFs.lengthInB 1 ≤ 4096 ∨ 4096 + 100 < 2 ^ 32 ∨
        ((4096 + 100 - 2 ^ 32) / 4096 = 4096 / 4096 ∧
          smallFs.lengthInB 1 = (4096 / 4096 + 1) * 4096) :=
  readData_due_iff (by decide +kernel) (by decide +kernel) (by decide) (by decide) (by decide)

/-- The last four bytes of a file of 4100, asked for with the largest length: the sum wraps
to 4095, and the loop takes no turn. -/
theorem readData_due_fails :
    1 < smallFs.inodeCount ∧ smallFs.lengthInB 1 ≤ 1023 * 4096 ∧
      ¬ ((readData smallFs 1 4096 1 4294967295).1 = smallFs.due 1 4096 4294967295 ∧
        (readData smallFs 1 4096 1 4294967295).2.length = smallFs.due 1 4096 4294967295) := by
  decide +kernel

/-! ## The block pointers a read looks up -/

/-- One turn of the copy loop: the index of its lookup `data_block_number[i]`, where it
starts in that block and how many bytes it copies. -/
structure CopyTurn where
  i : Nat
  dataBlockOffset : Nat
  byteToCopy : Nat

/-- The turns the copy loop of `read_data` takes, as `readDataLoop`. -/
def readDataTurns : Nat → Nat → Nat → Nat → List CopyTurn
  | 0, _, _, _ => []
  | fuel + 1, i, offset, length =>
    if i ≤ w32 (offset + length) / 4096 then
      let byteToCopy := if length ≥ 4096 then 4096 - offset % 4096 else length
      ⟨i, offset % 4096, byteToCopy⟩ ::
        readDataTurns fuel (i + 1) (w32 (offset + byteToCopy)) (length - byteToCopy)
    else []

/-- The indices `i` of the lookups `data_block_number[i]` a call of `read_data` makes, in order. -/
def readDataLookups (fs : Fs) (inode offset buf length : Nat) : List Nat :=
  if inode > w32 (fs.inodeCount + (2 ^ 32 - 1)) ∨ buf = 0 then []
  else if offset ≥ fs.lengthInB inode then []
  else
    let length := if w32 (offset + length) > fs.lengthInB inode then fs.lengthInB inode - offset
      else length
    (readDataTurns (w32 (offset + length) / 4096 + 1 - offset / 4096) (offset / 4096) offset
      length).map CopyTurn.i

theorem readDataLoop_turns (fuel i offset length : Nat) :
    readDataLoop fs inode fuel i offset length =
      (readDataTurns fuel i offset length).flatMap fun t =>
        slice fs.mem (fs.dataBlock inode t.i + t.dataBlockOffset) t.byteToCopy := by
  induction fuel generalizing i offset length with
  | zero => rfl
  | succ fuel ih =>
    simp only [readDataLoop, readDataTurns]
    split
    · rw [List.flatMap_cons, ih]
    · rfl

theorem w32_turn (offset length : Nat) {n : Nat} (hn : n ≤ length) :
    w32 (w32 (offset + n) + (length - n)) = w32 (offset + length) := by
  simp only [w32]
  omega

/-- The loop leaves no index out up to its bound, the last one included, whether bytes are
left to copy or not. -/
theorem readDataTurns_index (fuel i offset length : Nat)
    (hfuel : fuel = w32 (offset + length) / 4096 + 1 - i) :
    (readDataTurns fuel i offset length).map CopyTurn.i = List.range' i fuel := by
  -- on the turns left: the bound is the same in every turn
  induction fuel generalizing i offset length with
  | zero => rfl
  | succ fuel ih =>
    have hturn : (if length ≥ 4096 then 4096 - offset % 4096 else length) ≤ length := by
      split <;> omega
    simp only [readDataTurns]
    rw [if_pos (by omega), List.map_cons, List.range'_succ, ih]
    rw [w32_turn offset length hturn]
    omega

/-- The lookups of a call that is not refused and starts inside the file: from the block of
the first byte to the block of the end, where `offset + length` lies or the file ends. -/
theorem readDataLookups_eq (hok : fs.Readable inode) {offset buf length : Nat} (hbuf : buf ≠ 0)
    (hw : offset + length < 2 ^ 32) (hend : offset < fs.lengthInB inode) :
    readDataLookups fs inode offset buf length = List.range' (offset / 4096)
      (min (offset + length) (fs.lengthInB inode) / 4096 + 1 - offset / 4096) := by
  have hlen := fs.lengthInB_lt inode
  have hn : offset + (if w32 (offset + length) > fs.lengthInB inode then fs.lengthInB inode - offset
      else length) = min (offset + length) (fs.lengthInB inode) := by
    rw [w32_of_lt hw]
    split <;> omega
  unfold readDataLookups
  rw [if_neg (by unfold Fs.Readable at hok; omega), if_neg (by omega)]
  simp only
  rw [readDataTurns_index _ _ _ _ rfl, hn, w32_of_lt (by omega)]

/-- Every lookup stays inside the block list exactly where the call is refused, starts at the
end of the file or behind it, ends before the last byte of block 1022, or reads a file that
does not use the whole list. -/
theorem readDataLookups_lt_iff (fs : Fs) (inode offset buf length : Nat)
    (hlen : fs.lengthInB inode ≤ 1023 * 4096) (hw : offset + length < 2 ^ 32) :
    (∀ i ∈ readDataLookups fs inode offset buf length, i < 1023) ↔
      ¬ (fs.Readable inode ∧ buf ≠ 0 ∧ fs.lengthInB inode = 1023 * 4096 ∧
        offset < 1023 * 4096 ∧ 1023 * 4096 ≤ offset + length) := by
  by_cases hok : fs.Readable inode ∧ buf ≠ 0 ∧ offset < fs.lengthInB inode
  · obtain ⟨hread, hbuf, hend⟩ := hok
    rw [readDataLookups_eq hread hbuf hw hend]
    constructor
    · -- the bound is one of the indices
      intro h hfull
      have := h 1023 (by rw [List.mem_range'_1]; omega)
      omega
    · intro h i hi
      rw [List.mem_range'_1] at hi
      have : ¬ (fs.lengthInB inode = 1023 * 4096 ∧ 1023 * 4096 ≤ offset + length) := by
        intro hfull
        exact h ⟨hread, hbuf, hfull.1, by omega, hfull.2⟩
      omega
  · have hnone : readDataLookups fs inode offset buf length = [] := by
      unfold readDataLookups
      split
      · rfl
      · rename_i hacc
        unfold Fs.Readable at hok
        rw [if_pos (by omega)]
    rw [hnone]
    apply iff_of_true
    · intro i hi
      exact absurd hi List.not_mem_nil
    · intro hfull
      exact hok ⟨hfull.1, hfull.2.1, by omega⟩

/-- An image whose one file uses all 1023 pointers of its inode, block `i` of the file being
data block `i`. -/
def fullFs : Fs where
  bootAddr := 0x450000
  mem := fun a =>
    if 0x451004 ≤ a ∧ a < 0x452000 then
      UInt8.ofNat ((a - 0x451004) / 4 / 256 ^ ((a - 0x451004) % 4))
    else
      [(0x450000, [1, 0, 0, 0, 1, 0, 0, 0, 0xff, 0x03]), (0x450040, [0x66, 0x75, 0x6c, 0x6c]),
        (0x450060, [2]), (0x451000, [0x00, 0xf0, 0x3f])].foldl
          (fun m c => overlay m c.1 c.2) (fun _ => 0) a

theorem readDataLookups_lt_iff_full :
    (∀ i ∈ readDataLookups fullFs 0 4190206 1 1, i < 1023) ↔
      ¬ (fullFs.Readable 0 ∧ 1 ≠ 0 ∧ fullFs.lengthInB 0 = 1023 * 4096 ∧
        4190206 < 1023 * 4096 ∧ 1023 * 4096 ≤ 4190206 + 1) :=
  readDataLookups_lt_iff fullFs 0 4190206 1 1 (by decide +kernel) (by decide)

/-- Reading the last byte of that file takes a turn with nothing left to copy, and looks up
`data_block_number[1023]`. -/
theorem readDataLookups_lt_fails :
    fullFs.FileOk 0 ∧ fullFs.lengthInB 0 ≤ 1023 * 4096 ∧ 4190207 + 1 < 2 ^ 32 ∧
      readDataLookups fullFs 0 4190207 1 1 = [1022, 1023] ∧
      ¬ ∀ i ∈ readDataLookups fullFs 0 4190207 1 1, i < 1023 := by
  refine ⟨⟨by decide +kernel, by decide +kernel, ?_⟩, by decide +kernel, by decide, by decide +kernel,
    by decide +kernel⟩
  rw [show fullFs.lengthInB 0 = 1023 * 4096 by decide +kernel]
  decide +kernel

end Flipit

import Flipit.Bytes

/- The read-only filesystem (`filesystem.c`), over the raw bytes of its image.
   The image is one boot block, `inode_count` inodes and `data_block_count` data
   blocks of 4096 bytes each, loaded at `boot_addr`; every structure is read from
   memory at the address the code computes, in 32-bit arithmetic, so an access
   past the end of a block or of a table finds what lies there.

   Correspondence:
     `filesystem_init`        ↔ `Fs.dentryCount` .. `Fs.dataBlockStart`
     `read_dentry_by_name`    ↔ `readDentryByName`
     `read_dentry_by_index`   ↔ `readDentryByIndex`
     `read_data`              ↔ `readData`, its loop `readDataLoop`
   A buffer the functions fill is not part of the image: they return the bytes
   they store, in order. -/
namespace Flipit
open Bytes

/-- The image in memory, and where the boot loader put it. -/
structure Fs where
  mem : Memory
  bootAddr : Nat

namespace Fs
variable (fs : Fs)

def dentryCount : Nat := word fs.mem fs.bootAddr
def inodeCount : Nat := word fs.mem (fs.bootAddr + 4)
def dataBlockCount : Nat := word fs.mem (fs.bootAddr + 8)
def dentryAddr : Nat := w32 (fs.bootAddr + 64)
def inodeStart : Nat := w32 (fs.bootAddr + 4096)
def dataBlockStart : Nat := w32 (fs.inodeStart + fs.inodeCount * 4096)

/-- `(inode_t*)(inode_start + inode * block_size)`. -/
def inodeAddr (inode : Nat) : Nat := w32 (fs.inodeStart + inode * 4096)

/-- `current_inode->length_in_b`. -/
def lengthInB (inode : Nat) : Nat := word fs.mem (fs.inodeAddr inode)

/-- `current_inode->data_block_number[i]`. -/
def dataBlockNumber (inode i : Nat) : Nat := word fs.mem (fs.inodeAddr inode + 4 + 4 * i)

/-- The address of data block `i` of the file. -/
def dataBlock (inode i : Nat) : Nat :=
  w32 (fs.dataBlockStart + fs.dataBlockNumber inode i * 4096)

end Fs

/-- `dentry_t`, without its reserved bytes. -/
structure Dentry where
  fileName : Memory
  fileType : Nat
  inode : Nat

/-- `filesystem_addr->dentries[i]`. The name is the memory from the entry on: an
unterminated name runs into the fields after it. -/
def Fs.dentry (fs : Fs) (i : Nat) : Dentry :=
  let a := w32 (fs.dentryAddr + 64 * i)
  { fileName := fun j => fs.mem (w32 (a + j))
    fileType := word fs.mem (a + 32)
    inode := word fs.mem (a + 36) }

/-- `strncmp`: the difference at the first position below `n` where the strings
differ or the first one ends. -/
def strncmp (s1 s2 : Memory) (n : Nat) : Int :=
  match (List.range n).find? fun i => s1 i != s2 i || s1 i == 0 with
  | some i => (s1 i).toInt8.toInt - (s2 i).toInt8.toInt
  | none => 0

/-- What a directory lookup leaves behind: its return value, the caller's dentry
and the static `fname_length`. -/
structure Lookup where
  ret : Int
  dentry : Dentry
  fnameLength : Nat

/-- `read_dentry_by_name`. A name is given by its bytes, `none` for `NULL`; the
search only asks how a stored name's length compares with one up to 32. -/
def readDentryByName (fs : Fs) (fname : Option (List UInt8)) (dentry : Dentry)
    (fnameLength : Nat) : Lookup :=
  match fname with
  | none => ⟨-1, dentry, fnameLength⟩
  | some s =>
    let n := strlen (cstr s) s.length
    if n > 32 ∨ n = 0 then ⟨-1, dentry, n⟩
    else
      -- a name of 32 bytes need not be terminated, so its length is not compared
      let found := (List.range 63).find? fun i =>
        let curr := (fs.dentry i).fileName
        !(n != strlen curr 64 && n != 32) && strncmp (cstr s) curr n == 0
      match found with
      | none => ⟨-1, dentry, n⟩
      | some i =>
        let curr := fs.dentry i
        ⟨0, { fileName := fun j => if j < n then curr.fileName j else dentry.fileName j
              fileType := curr.fileType
              inode := curr.inode }, n⟩

/-- `read_dentry_by_index`: one index more than there are entries passes. -/
def readDentryByIndex (fs : Fs) (index : Nat) (dentry : Dentry) (fnameLength : Nat) : Lookup :=
  if index > fs.dentryCount then ⟨-1, dentry, fnameLength⟩
  else
    let curr := fs.dentry index
    let n := min (strlen curr.fileName 33) 32
    ⟨0, { fileName := fun j => if j < n then curr.fileName j else dentry.fileName j
          fileType := curr.fileType
          inode := curr.inode }, n⟩

/-- The copy loop of `read_data` from block `i` on: the bytes it stores. `fuel` is
the number of turns left; `offset + length` does not change, so neither does the
bound. -/
def readDataLoop (fs : Fs) (inode : Nat) : Nat → Nat → Nat → Nat → List UInt8
  | 0, _, _, _ => []
  | fuel + 1, i, offset, length =>
    if i ≤ w32 (offset + length) / 4096 then
      let dataBlockOffset := offset % 4096
      -- the room left in this block counts only when a whole block is asked for
      let byteToCopy := if length ≥ 4096 then 4096 - offset % 4096 else length
      slice fs.mem (fs.dataBlock inode i + dataBlockOffset) byteToCopy ++
        readDataLoop fs inode fuel (i + 1) (w32 (offset + byteToCopy)) (length - byteToCopy)
    else []

/-- `read_data`: the value it returns and the bytes it stores from `buf` on.
`inode_count - 1` and `offset + length` are 32-bit; `data_copied` is the number
of bytes stored. -/
def readData (fs : Fs) (inode offset buf length : Nat) : Int × List UInt8 :=
  if inode > w32 (fs.inodeCount + (2 ^ 32 - 1)) ∨ buf = 0 then (-1, [])
  else if offset ≥ fs.lengthInB inode then (0, [])
  else
    let length := if w32 (offset + length) > fs.lengthInB inode then fs.lengthInB inode - offset
      else length
    let bytes := readDataLoop fs inode (w32 (offset + length) / 4096 + 1 - offset / 4096)
      (offset / 4096) offset length
    (toInt32 (w32 bytes.length), bytes)

/-- A small image: the program `shell` and the file `data` of 4100 bytes, whose two
blocks have the program's block between them. -/
def smallFs : Fs where
  bootAddr := 0x450000
  mem := [(0x450000, [2, 0, 0, 0, 2, 0, 0, 0, 3]),
      (0x450040, [0x73, 0x68, 0x65, 0x6c, 0x6c]), (0x450060, [2, 0, 0, 0, 0]),
      (0x450080, [0x64, 0x61, 0x74, 0x61]), (0x4500a0, [2, 0, 0, 0, 1]),
      (0x451000, [28, 0, 0, 0, 1]), (0x452000, [0x04, 0x10, 0, 0, 0, 0, 0, 0, 2]),
      (0x453ffe, [0x61, 0x62]), (0x454000, [0x7f, 0x45, 0x4c, 0x46]), (0x454018, [0x00, 0x80, 0x04, 0x08]),
      (0x455000, [0x63, 0x64, 0x65, 0x66])].foldl (fun m c => overlay m c.1 c.2) fun _ => 0

end Flipit

import Mathlib.Algebra.Group.Int.Defs
import Mathlib.Algebra.Group.Nat.Defs
import Mathlib.Algebra.GroupWithZero.Nat
import Mathlib.Logic.Function.Basic
import Mathlib.Data.Fin.Basic

/- The paging structures (`paging.c`) and x86 translation through them.

   One page directory and two page tables: `video_page_table` behind directory
   entry 0 and `vidmap_page_table` behind entry 1023; entry 1 is the kernel's 4MB
   page and entry 32 the 4MB page of the running process. After `paging_init` only
   three operations touch them, and each rewrites fields of single entries. The
   state they can produce is one family, `tables`, indexed by the pid last mapped
   and by the frame the two video pages show (`Mmu.run_ok`); translation is then
   computed once, on the family (`translate_user`).

   Correspondence:
     `video_table_init` .. `term_page_int`, `paging_init`  ↔ the same names below
     `user_page_init`                                      ↔ `userPageInit`
     `term_page_switch`                                    ↔ `termPageSwitch`
   The addresses of the two tables are the linker's (`Layout`). A TLB flush ends
   every operation, so translation reads the tables themselves. -/
namespace Flipit

/-- There is a process slot, and a terminal. -/
instance neZero_slots : NeZero 8 := ⟨by decide⟩

instance neZero_terminals : NeZero 3 := ⟨by decide⟩

/-- `page_directory_entry`. -/
structure PageDirectoryEntry where
  presentFlag : Bool
  readWriteFlag : Bool
  userSupervisorFlag : Bool
  pwtFlag : Bool
  pcdFlag : Bool
  accessedFlag : Bool
  reservedFlag : Bool
  pageSizeFlag : Bool
  globalPageFlag : Bool
  availableFlag : Nat
  baseAddress : Nat
  deriving DecidableEq

/-- `page_table_entry`. -/
structure PageTableEntry where
  presentFlag : Bool
  readWriteFlag : Bool
  userSupervisorFlag : Bool
  pwtFlag : Bool
  pcdFlag : Bool
  accessedFlag : Bool
  dirtyFlag : Bool
  pageSizeFlag : Bool
  globalPageFlag : Bool
  availableFlag : Nat
  baseAddress : Nat
  deriving DecidableEq

/-- Where the linker put the two page tables: 4KB-aligned, distinct, below 4GB. -/
structure Layout where
  videoPageTable : Nat
  vidmapPageTable : Nat
  video_aligned : videoPageTable % 4096 = 0
  vidmap_aligned : vidmapPageTable % 4096 = 0
  video_lt : videoPageTable < 2 ^ 32
  vidmap_lt : vidmapPageTable < 2 ^ 32
  ne : videoPageTable ≠ vidmapPageTable

structure Paging where
  layout : Layout
  pageDirectory : Nat → PageDirectoryEntry
  videoPageTable : Nat → PageTableEntry
  vidmapPageTable : Nat → PageTableEntry

/-- The value the initialisation loop of `paging_init` gives an entry. -/
def PageDirectoryEntry.empty : PageDirectoryEntry :=
  { presentFlag := false, readWriteFlag := true, userSupervisorFlag := false, pwtFlag := false,
    pcdFlag := false, accessedFlag := false, reservedFlag := false, pageSizeFlag := false,
    globalPageFlag := false, availableFlag := 0, baseAddress := 0 }

/-- The value `video_table_init` and `vidmap_page_initialization` give an entry. -/
def PageTableEntry.empty : PageTableEntry :=
  { presentFlag := false, readWriteFlag := true, userSupervisorFlag := false, pwtFlag := false,
    pcdFlag := false, accessedFlag := false, dirtyFlag := false, pageSizeFlag := false,
    globalPageFlag := false, availableFlag := 0, baseAddress := 0 }

namespace Paging

/-- Assign fields of one directory entry. -/
def setPde (p : Paging) (i : Nat) (f : PageDirectoryEntry → PageDirectoryEntry) : Paging :=
  { p with pageDirectory := Function.update p.pageDirectory i (f (p.pageDirectory i)) }

/-- Assign fields of one entry of the video page table. -/
def setVideo (p : Paging) (i : Nat) (f : PageTableEntry → PageTableEntry) : Paging :=
  { p with videoPageTable := Function.update p.videoPageTable i (f (p.videoPageTable i)) }

/-- Assign fields of one entry of the vidmap page table. -/
def setVidmap (p : Paging) (i : Nat) (f : PageTableEntry → PageTableEntry) : Paging :=
  { p with vidmapPageTable := Function.update p.vidmapPageTable i (f (p.vidmapPageTable i)) }

def videoTableInit (p : Paging) : Paging := { p with videoPageTable := fun _ => .empty }

def videoDescInit (p : Paging) : Paging :=
  p.setPde 0 fun e => { e with
    presentFlag := true, userSupervisorFlag := true
    baseAddress := p.layout.videoPageTable >>> 12 % 2 ^ 20 }

def kernelDescInit (p : Paging) : Paging :=
  p.setPde 1 fun e => { e with
    presentFlag := true, pageSizeFlag := true, baseAddress := 0x400000 >>> 12 }

def vidmapPageInitialization (p : Paging) : Paging :=
  { p with vidmapPageTable := fun _ => .empty }

def vidmapDescInit (p : Paging) : Paging :=
  p.setPde (0xFFC00000 >>> 22) fun e => { e with
    presentFlag := true, accessedFlag := true, pageSizeFlag := false, userSupervisorFlag := true
    baseAddress := p.layout.vidmapPageTable >>> 12 % 2 ^ 20 }

/-- The assignment `term_page_int` makes once per backup and once for the back door. -/
def setBackup (p : Paging) (entry address : Nat) : Paging :=
  p.setVideo entry fun e => { e with
    baseAddress := address >>> 12, presentFlag := true, userSupervisorFlag := false }

/-- Backups of terminals 0, 1 and 2 at entries 185 to 187, the back door at 188. -/
def termPageInt (p : Paging) : Paging :=
  (((p.setBackup 185 0xB9000).setBackup 186 0xBA000).setBackup 187 0xBB000).setBackup 188 0xB8000

/-- `paging_init`, from whatever the structures held. -/
def pagingInit (p : Paging) : Paging :=
  let p := { p with pageDirectory := fun _ => .empty }
  let p := p.videoTableInit.videoDescInit.kernelDescInit.vidmapPageInitialization.vidmapDescInit.termPageInt
  let p := p.setVideo 184 fun e => { e with
    baseAddress := 0xB8000 >>> 12, presentFlag := true, userSupervisorFlag := true }
  p.setVidmap ((0xFFC00000 &&& 0x003FF000) >>> 12) fun e => { e with
    baseAddress := 0xB8000 >>> 12, presentFlag := true, userSupervisorFlag := true }

/-- `user_page_init`. -/
def userPageInit (p : Paging) (processNum : Nat) : Paging :=
  p.setPde 32 fun e => { e with
    presentFlag := true, userSupervisorFlag := true, accessedFlag := true, pageSizeFlag := true
    baseAddress := (0x800000 + 0x400000 * processNum) >>> 12 % 2 ^ 20 }

/-- The frame number `term_page_switch` writes into both video pages. -/
def shownFrame (currentVisible terminalNum : Int) : Nat :=
  if currentVisible = terminalNum then 0xB8000 >>> 12
  else ((185 + terminalNum) * 4096 / 2 ^ 12 % 2 ^ 20).toNat

/-- `term_page_switch`. -/
def termPageSwitch (p : Paging) (currentVisible terminalNum : Int) : Paging :=
  (p.setVideo 184 fun e => { e with baseAddress := shownFrame currentVisible terminalNum }).setVidmap 0
    fun e => { e with baseAddress := shownFrame currentVisible terminalNum }

end Paging

/-! ## Translation -/

/-- Who accesses memory, and whether it writes. -/
structure Access where
  user : Bool
  write : Bool
  deriving DecidableEq

/-- The check an entry makes: present, and for a user access its privilege and, on
a write, its write bit (`CR0.WP` is clear, so the kernel may always write). -/
def Access.permits (a : Access) (present user write : Bool) : Bool :=
  present && (!a.user || (user && (!a.write || write)))

namespace Paging

/-- The page table whose frame a directory entry names. -/
def tableAt (p : Paging) (base : Nat) : Option (Nat → PageTableEntry) :=
  if base = p.layout.videoPageTable >>> 12 then some p.videoPageTable
  else if base = p.layout.vidmapPageTable >>> 12 then some p.vidmapPageTable
  else none

/-- The physical address of the virtual address `v`, with 4MB pages enabled; `none`
is a page fault. -/
def translate (p : Paging) (a : Access) (v : Nat) : Option Nat :=
  let pde := p.pageDirectory (v / 2 ^ 22)
  if a.permits pde.presentFlag pde.userSupervisorFlag pde.readWriteFlag then
    if pde.pageSizeFlag then some (pde.baseAddress / 2 ^ 10 * 2 ^ 22 + v % 2 ^ 22)
    else (p.tableAt pde.baseAddress).bind fun pt =>
      let pte := pt (v / 2 ^ 12 % 2 ^ 10)
      if a.permits pte.presentFlag pte.userSupervisorFlag pte.readWriteFlag then
        some (pte.baseAddress * 2 ^ 12 + v % 2 ^ 12)
      else none
  else none

/-! ## The reachable tables -/

/-- The paging structures when `pid` was mapped last (`none`: not yet) and the video
pages show frame `frame`. -/
def tables (layout : Layout) (pid : Option Nat) (frame : Nat) : Paging where
  layout := layout
  pageDirectory := fun i =>
    if i = 0 then { PageDirectoryEntry.empty with
      presentFlag := true, userSupervisorFlag := true, baseAddress := layout.videoPageTable >>> 12 }
    else if i = 1 then { PageDirectoryEntry.empty with
      presentFlag := true, pageSizeFlag := true, baseAddress := 0x400 }
    else if i = 1023 then { PageDirectoryEntry.empty with
      presentFlag := true, accessedFlag := true, userSupervisorFlag := true
      baseAddress := layout.vidmapPageTable >>> 12 }
    else if i = 32 then match pid with
      | none => .empty
      | some pid => { PageDirectoryEntry.empty with
          presentFlag := true, userSupervisorFlag := true, accessedFlag := true
          pageSizeFlag := true, baseAddress := 0x800 + 0x400 * pid }
    else .empty
  videoPageTable := fun i =>
    if i = 184 then { PageTableEntry.empty with
      presentFlag := true, userSupervisorFlag := true, baseAddress := frame }
    else if i = 185 then { PageTableEntry.empty with presentFlag := true, baseAddress := 0xB9 }
    else if i = 186 then { PageTableEntry.empty with presentFlag := true, baseAddress := 0xBA }
    else if i = 187 then { PageTableEntry.empty with presentFlag := true, baseAddress := 0xBB }
    else if i = 188 then { PageTableEntry.empty with presentFlag := true, baseAddress := 0xB8 }
    else .empty
  vidmapPageTable := fun i =>
    if i = 0 then { PageTableEntry.empty with
      presentFlag := true, userSupervisorFlag := true, baseAddress := frame }
    else .empty

theorem shiftRight_12 (n : Nat) : n >>> 12 = n / 4096 := Nat.shiftRight_eq_div_pow n 12

theorem video_base (l : Layout) : l.videoPageTable >>> 12 % 2 ^ 20 = l.videoPageTable >>> 12 := by
  have := l.video_lt
  rw [shiftRight_12]; omega

theorem vidmap_base (l : Layout) : l.vidmapPageTable >>> 12 % 2 ^ 20 = l.vidmapPageTable >>> 12 := by
  have := l.vidmap_lt
  rw [shiftRight_12]; omega

theorem user_base {pid : Nat} (h : pid < 8) :
    (0x800000 + 0x400000 * pid) >>> 12 % 2 ^ 20 = 0x800 + 0x400 * pid := by
  rw [shiftRight_12]; omega

theorem pagingInit_pageDirectory (p : Paging) :
    p.pagingInit.pageDirectory = (tables p.layout none 0xB8).pageDirectory := by
  funext i
  simp only [pagingInit, videoTableInit, videoDescInit, kernelDescInit, vidmapPageInitialization,
    vidmapDescInit, termPageInt, setBackup, setPde, setVideo, setVidmap, video_base, vidmap_base]
  by_cases h0 : i = 0
  · subst h0; rfl
  by_cases h1 : i = 1
  · subst h1; rfl
  by_cases h2 : i = 1023
  · subst h2; rfl
  rw [Function.update_of_ne (show i ≠ 0xFFC00000 >>> 22 from h2), Function.update_of_ne h1,
    Function.update_of_ne h0]
  simp only [tables, if_neg h0, if_neg h1, if_neg h2, ite_self]

theorem pagingInit_videoPageTable (p : Paging) :
    p.pagingInit.videoPageTable = (tables p.layout none 0xB8).videoPageTable := by
  funext i
  simp only [pagingInit, videoTableInit, videoDescInit, kernelDescInit, vidmapPageInitialization,
    vidmapDescInit, termPageInt, setBackup, setPde, setVideo, setVidmap]
  by_cases h4 : i = 184
  · subst h4; rfl
  by_cases h5 : i = 185
  · subst h5; rfl
  by_cases h6 : i = 186
  · subst h6; rfl
  by_cases h7 : i = 187
  · subst h7; rfl
  by_cases h8 : i = 188
  · subst h8; rfl
  rw [Function.update_of_ne h4, Function.update_of_ne h8, Function.update_of_ne h7,
    Function.update_of_ne h6, Function.update_of_ne h5]
  simp only [tables, if_neg h4, if_neg h5, if_neg h6, if_neg h7, if_neg h8]

theorem pagingInit_vidmapPageTable (p : Paging) :
    p.pagingInit.vidmapPageTable = (tables p.layout none 0xB8).vidmapPageTable := by
  funext i
  simp only [pagingInit, videoTableInit, videoDescInit, kernelDescInit, vidmapPageInitialization,
    vidmapDescInit, termPageInt, setBackup, setPde, setVideo, setVidmap]
  by_cases h0 : i = 0
  · subst h0; rfl
  rw [Function.update_of_ne (show i ≠ (0xFFC00000 &&& 0x003FF000) >>> 12 from h0)]
  simp only [tables, if_neg h0]

theorem pagingInit_eq (p : Paging) : p.pagingInit = tables p.layout none 0xB8 := by
  have hd := pagingInit_pageDirectory p
  have hv := pagingInit_videoPageTable p
  have hm := pagingInit_vidmapPageTable p
  calc p.pagingInit = { p.pagingInit with
        pageDirectory := (tables p.layout none 0xB8).pageDirectory
        videoPageTable := (tables p.layout none 0xB8).videoPageTable
        vidmapPageTable := (tables p.layout none 0xB8).vidmapPageTable } := by rw [← hd, ← hv, ← hm]
    _ = tables p.layout none 0xB8 := rfl

theorem userPageInit_tables {layout : Layout} {pid : Option Nat} {frame q : Nat} (hq : q < 8) :
    (tables layout pid frame).userPageInit q = tables layout (some q) frame := by
  simp only [userPageInit, setPde, user_base hq]
  unfold tables
  congr 1
  funext i
  cases pid <;> by_cases hi : i = 32 <;> simp [Function.update_apply, hi, PageDirectoryEntry.empty]

theorem termPageSwitch_tables {layout : Layout} {pid : Option Nat} {frame : Nat} {cv tn : Int} :
    (tables layout pid frame).termPageSwitch cv tn = tables layout pid (shownFrame cv tn) := by
  simp only [termPageSwitch, setVideo, setVidmap]
  unfold tables
  congr 1 <;> funext i <;> simp only [Function.update_apply] <;> split_ifs <;> simp_all

theorem tableAt_video (layout : Layout) (pid : Option Nat) (frame : Nat) :
    (tables layout pid frame).tableAt (layout.videoPageTable >>> 12) =
      some (tables layout pid frame).videoPageTable := if_pos rfl

theorem tableAt_vidmap (layout : Layout) (pid : Option Nat) (frame : Nat) :
    (tables layout pid frame).tableAt (layout.vidmapPageTable >>> 12) =
      some (tables layout pid frame).vidmapPageTable := by
  have h1 := layout.video_aligned
  have h2 := layout.vidmap_aligned
  have h3 := layout.ne
  have hne : layout.vidmapPageTable >>> 12 ≠ layout.videoPageTable >>> 12 := by
    rw [shiftRight_12, shiftRight_12]; omega
  simp only [tableAt, tables, if_neg hne, if_true]

theorem video_supervisor {layout : Layout} {pid : Option Nat} {frame i : Nat} (h : i ≠ 184) :
    ((tables layout pid frame).videoPageTable i).userSupervisorFlag = false := by
  simp only [tables, if_neg h]
  split_ifs <;> rfl

theorem vidmap_supervisor {layout : Layout} {pid : Option Nat} {frame i : Nat} (h : i ≠ 0) :
    ((tables layout pid frame).vidmapPageTable i).userSupervisorFlag = false := by
  simp only [tables, if_neg h]
  rfl

theorem directory_supervisor {layout : Layout} {pid : Option Nat} {frame i : Nat} (h0 : i ≠ 0)
    (h1 : i ≠ 1023) (h2 : i ≠ 32) :
    ((tables layout pid frame).pageDirectory i).userSupervisorFlag = false := by
  simp only [tables, if_neg h0, if_neg h1, if_neg h2]
  split_ifs <;> rfl

theorem permits_supervisor (present rw write : Bool) :
    Access.permits ⟨true, write⟩ present false rw = false := by
  simp [Access.permits]

theorem permits_all (a : Access) : a.permits true true true = true := by
  simp [Access.permits]

/-- Translation behind a directory entry that names a table and stops nobody. -/
theorem translate_table {p : Paging} {a : Access} {v i base : Nat} {pt : Nat → PageTableEntry}
    {accessed : Bool} (hv : v / 2 ^ 22 = i)
    (hdir : p.pageDirectory i = { PageDirectoryEntry.empty with
      presentFlag := true, userSupervisorFlag := true, accessedFlag := accessed
      baseAddress := base })
    (ht : p.tableAt base = some pt) :
    p.translate a v =
      let pte := pt (v / 2 ^ 12 % 2 ^ 10)
      if a.permits pte.presentFlag pte.userSupervisorFlag pte.readWriteFlag then
        some (pte.baseAddress * 2 ^ 12 + v % 2 ^ 12)
      else none := by
  simp only [translate, hv, hdir, PageDirectoryEntry.empty, permits_all, ht, if_true,
    Bool.false_eq_true, if_false, Option.bind_some]

theorem translate_process (layout : Layout) (pid frame : Nat) (a : Access) {v : Nat}
    (hv : v / 2 ^ 22 = 32) :
    (tables layout (some pid) frame).translate a v = some (0x800000 + 0x400000 * pid + v % 2 ^ 22) := by
  have hdir : (tables layout (some pid) frame).pageDirectory 32 = { PageDirectoryEntry.empty with
      presentFlag := true, userSupervisorFlag := true, accessedFlag := true
      pageSizeFlag := true, baseAddress := 0x800 + 0x400 * pid } := rfl
  simp only [translate, hv, hdir, PageDirectoryEntry.empty, permits_all, if_true]
  rw [show (0x800 + 0x400 * pid) / 2 ^ 10 * 2 ^ 22 = 0x800000 + 0x400000 * pid by omega]

theorem translate_user (layout : Layout) (pid frame v : Nat) (write : Bool) :
    (tables layout (some pid) frame).translate ⟨true, write⟩ v =
      if v / 2 ^ 22 = 32 then some (0x800000 + 0x400000 * pid + v % 2 ^ 22)
      else if v / 2 ^ 12 = 0xB8 ∨ v / 2 ^ 12 = 0xFFC00 then some (frame * 2 ^ 12 + v % 2 ^ 12)
      else none := by
  by_cases h0 : v / 2 ^ 22 = 0
  · -- the video page table
    rw [if_neg (by omega), translate_table h0 rfl (tableAt_video layout (some pid) frame)]
    by_cases h1 : v / 2 ^ 12 = 0xB8
    · rw [if_pos (Or.inl h1), h1]
      exact if_pos (permits_all _)
    · rw [if_neg (show ¬ (v / 2 ^ 12 = 0xB8 ∨ v / 2 ^ 12 = 0xFFC00) by omega)]
      have hi : v / 2 ^ 12 % 2 ^ 10 ≠ 184 := by omega
      simp only [video_supervisor hi, permits_supervisor, Bool.false_eq_true, if_false]
  by_cases h1 : v / 2 ^ 22 = 1023
  · -- the vidmap page table
    rw [if_neg (by omega), translate_table h1 rfl (tableAt_vidmap layout (some pid) frame)]
    by_cases h2 : v / 2 ^ 12 = 0xFFC00
    · rw [if_pos (Or.inr h2), h2]
      exact if_pos (permits_all _)
    · rw [if_neg (show ¬ (v / 2 ^ 12 = 0xB8 ∨ v / 2 ^ 12 = 0xFFC00) by omega)]
      have hi : v / 2 ^ 12 % 2 ^ 10 ≠ 0 := by omega
      simp only [vidmap_supervisor hi, permits_supervisor, Bool.false_eq_true, if_false]
  rw [if_neg (show ¬ (v / 2 ^ 12 = 0xB8 ∨ v / 2 ^ 12 = 0xFFC00) by omega)]
  by_cases h2 : v / 2 ^ 22 = 32
  · -- the 4MB page of the process
    rw [if_pos h2, translate_process layout pid frame _ h2]
  · -- every other directory entry is the kernel's or absent
    rw [if_neg h2]
    simp only [translate, directory_supervisor h0 h1 h2, permits_supervisor]
    rfl

end Paging

/-! ## Isolation -/

/-- The physical address of terminal `t`'s logical screen: the VGA frame if it is the
visible one, its backup frame otherwise. -/
def screenFrame (currentVisible t : Int) : Int :=
  if t = currentVisible then 0xB8000 else 0xB9000 + 0x1000 * t

/-- The paging structures and the two indices `term_page_switch` compares. -/
structure Mmu where
  paging : Paging
  terminalNum : Int
  currentVisible : Int

/-- The operations on the paging structures after `paging_init`. -/
inductive MmuOp where
  | userPageInit (pid : Fin 8)
  | termVisibleSwitch (dest : Fin 3)
  | schedule (t : Fin 3)

/-- After `paging_init`, before the first tick. -/
def Mmu.boot (p : Paging) : Mmu := ⟨p.pagingInit, -1, 0⟩

/-- `term_visible_switch` sets `current_visible` in each of its three cases. -/
def visibleAfter (currentVisible dest : Int) : Int :=
  if currentVisible = 0 ∨ currentVisible = 1 ∨ currentVisible = 2 then dest else currentVisible

def Mmu.step (m : Mmu) : MmuOp → Mmu
  | .userPageInit pid => { m with paging := m.paging.userPageInit pid }
  | .termVisibleSwitch dest =>
    let v := visibleAfter m.currentVisible dest
    { m with currentVisible := v, paging := m.paging.termPageSwitch v m.terminalNum }
  | .schedule t =>
    { m with terminalNum := t, paging := m.paging.termPageSwitch m.currentVisible t }

/-- The pid last passed to `user_page_init`. -/
def lastPid : List MmuOp → Option Nat → Option Nat
  | [], last => last
  | .userPageInit pid :: ops, _ => lastPid ops (some pid)
  | _ :: ops, last => lastPid ops last

/-- The two indices stay in range, and the tables are those of the family. -/
structure Mmu.Ok (layout : Layout) (last : Option Nat) (m : Mmu) : Prop where
  terminal : -1 ≤ m.terminalNum ∧ m.terminalNum ≤ 2
  visible : 0 ≤ m.currentVisible ∧ m.currentVisible ≤ 2
  paging : m.paging = Paging.tables layout last (Paging.shownFrame m.currentVisible m.terminalNum)

theorem shownFrame_eq (cv : Int) {tn : Int} (h : -1 ≤ tn ∧ tn ≤ 2) :
    ((Paging.shownFrame cv tn * 2 ^ 12 : Nat) : Int) = screenFrame cv tn := by
  unfold Paging.shownFrame screenFrame
  by_cases hc : cv = tn
  · rw [if_pos hc, if_pos hc.symm]; decide
  · rw [if_neg hc, if_neg (fun e => hc e.symm)]
    omega

theorem Mmu.boot_ok (p : Paging) : (Mmu.boot p).Ok p.layout none where
  terminal := by simp [Mmu.boot]
  visible := by simp [Mmu.boot]
  paging := Paging.pagingInit_eq p

theorem Mmu.step_ok {layout : Layout} {last : Option Nat} {m : Mmu} (op : MmuOp)
    (h : m.Ok layout last) : (m.step op).Ok layout (lastPid [op] last) := by
  have hv := h.visible
  cases op with
  | userPageInit pid =>
    refine ⟨h.terminal, hv, ?_⟩
    simp only [Mmu.step, h.paging, Paging.userPageInit_tables pid.isLt]
    rfl
  | termVisibleSwitch dest =>
    have hd : visibleAfter m.currentVisible dest = dest := if_pos (by omega)
    refine ⟨h.terminal, ?_, ?_⟩
    · simp only [Mmu.step, hd]; omega
    · simp only [Mmu.step, hd, h.paging, Paging.termPageSwitch_tables]
      rfl
  | schedule t =>
    refine ⟨?_, hv, ?_⟩
    · simp only [Mmu.step]; omega
    · simp only [Mmu.step, h.paging, Paging.termPageSwitch_tables]
      rfl

theorem Mmu.run_ok {layout : Layout} {last : Option Nat} {m : Mmu} (ops : List MmuOp)
    (h : m.Ok layout last) : (ops.foldl Mmu.step m).Ok layout (lastPid ops last) := by
  induction ops generalizing m last with
  | nil => exact h
  | cons op ops ih =>
    have := ih (Mmu.step_ok op h)
    cases op <;> exact this

/-- The virtual addresses user code may touch: the process's 4MB page and two video pages. -/
def UserRange (v : Nat) : Prop := 0x08000000 ≤ v ∧ v < 0x08400000
def VideoPage (v : Nat) : Prop := v / 0x1000 = 0xB8000 / 0x1000 ∨ v / 0x1000 = 0xFFC00000 / 0x1000

/-- User-mode memory access, in every state the paging operations reach: it succeeds
exactly in the process's page and in the two video pages, it goes to the frame of
the pid mapped last or to the logical screen of the scheduled terminal, and so it
never reaches the kernel's region, another pid's frame or another terminal's screen. -/
theorem user_access (p : Paging) (ops : List MmuOp) (pid : Fin 8)
    (hpid : lastPid ops none = some pid.val) (v : Fin (2 ^ 32)) (write : Bool) :
    let m := ops.foldl Mmu.step (Mmu.boot p)
    let t := m.paging.translate ⟨true, write⟩ v.val
    (t.isSome ↔ UserRange v.val ∨ VideoPage v.val) ∧
    (UserRange v.val → t = some (0x800000 + 0x400000 * pid.val + (v.val - 0x08000000))) ∧
    (VideoPage v.val →
      t.map Int.ofNat = some (screenFrame m.currentVisible m.terminalNum + (v.val % 0x1000 : Nat))) ∧
    (∀ a, t = some a → ¬ (0x400000 ≤ a ∧ a < 0x800000) ∧
      (∀ q : Fin 8, q ≠ pid →
        ¬ (0x800000 + 0x400000 * q.val ≤ a ∧ a < 0x800000 + 0x400000 * (q.val + 1))) ∧
      (0 ≤ m.terminalNum → ∀ u : Fin 3, (u.val : Int) ≠ m.terminalNum →
        ¬ (screenFrame m.currentVisible u.val ≤ a ∧
          a < screenFrame m.currentVisible u.val + 0x1000))) := by
  intro m t
  obtain ⟨⟨htl, htu⟩, ⟨hvl, hvu⟩, hp⟩ : m.Ok p.layout (some pid.val) :=
    hpid ▸ Mmu.run_ok ops (Mmu.boot_ok p)
  have hframe := shownFrame_eq m.currentVisible ⟨htl, htu⟩
  have ht : t = _ := congrArg (·.translate ⟨true, write⟩ v.val) hp
  rw [Paging.translate_user] at ht
  have hq := pid.isLt
  generalize Paging.shownFrame m.currentVisible m.terminalNum = f at ht hframe
  unfold UserRange VideoPage
  by_cases hu : v.val / 2 ^ 22 = 32
  · -- the process's page: 4MB from 8MB + 4MB * pid on
    rw [if_pos hu] at ht
    have hne : ¬ (v.val / 0x1000 = 0xB8000 / 0x1000 ∨ v.val / 0x1000 = 0xFFC00000 / 0x1000) := by omega
    refine ⟨?_, ?_, fun h => absurd h hne, ?_⟩
    · simp only [ht, Option.isSome_some, true_iff]; omega
    · intro _; rw [ht, show v.val - 0x08000000 = v.val % 2 ^ 22 by omega]
    · intro a ha
      obtain rfl := Option.some.inj (ht.symm.trans ha)
      refine ⟨by omega, fun q hqp => ?_, fun _ u hu => ?_⟩
      · have := Fin.val_ne_of_ne hqp
        omega
      · unfold screenFrame; split_ifs <;> omega
  rw [if_neg hu] at ht
  by_cases hpage : v.val / 2 ^ 12 = 0xB8 ∨ v.val / 2 ^ 12 = 0xFFC00
  · -- a video page: the frame is one of 0xB8 to 0xBB, so below the kernel's
    rw [if_pos hpage] at ht
    refine ⟨?_, fun h => by omega, fun _ => ?_, ?_⟩
    · simp only [ht, Option.isSome_some, true_iff]; omega
    · rw [ht, ← hframe]; rfl
    · intro a ha
      obtain rfl := Option.some.inj (ht.symm.trans ha)
      refine ⟨?_, fun q _ => ?_, fun h0 u hu => ?_⟩
      · unfold screenFrame at hframe; split_ifs at hframe <;> omega
      · unfold screenFrame at hframe; split_ifs at hframe <;> omega
      · unfold screenFrame at *; split_ifs at * <;> omega
  · rw [if_neg hpage] at ht
    refine ⟨?_, fun h => by omega, fun h => absurd h (by omega), fun a ha => ?_⟩
    · simp only [ht, Option.isSome_none, Bool.false_eq_true, false_iff]; omega
    · rw [ht] at ha; cases ha

/-- The two tables one after the other in the kernel's page, their entries as yet unset. -/
def linkedPaging : Paging where
  layout :=
    { videoPageTable := 0x410000, vidmapPageTable := 0x411000, video_aligned := by decide
      vidmap_aligned := by decide, video_lt := by decide, vidmap_lt := by decide, ne := by decide }
  pageDirectory := fun _ => .empty
  videoPageTable := fun _ => .empty
  vidmapPageTable := fun _ => .empty

/-- Process 3 in terminal 1 while terminal 2 is shown. -/
def backgroundedOps : List MmuOp := [.userPageInit 3, .schedule 1, .termVisibleSwitch 2]

theorem user_access_backgrounded :
    let m := backgroundedOps.foldl Mmu.step (Mmu.boot linkedPaging)
    lastPid backgroundedOps none = some 3 ∧
      m.paging.translate ⟨true, true⟩ 0x08048000 = some (0x1400000 + 0x48000) ∧
      (m.paging.translate ⟨true, true⟩ 0xFFC00010).map Int.ofNat = some (0xBA000 + 0x10) := by
  intro m
  have hprogram := user_access linkedPaging backgroundedOps 3 rfl ⟨0x08048000, by decide⟩ true
  have hscreen := user_access linkedPaging backgroundedOps 3 rfl ⟨0xFFC00010, by decide⟩ true
  exact ⟨rfl, hprogram.2.1 ⟨by decide, by decide⟩, hscreen.2.2.1 (.inr (by decide))⟩

end Flipit

import Mathlib.Data.Fin.Tuple.Basic
import Flipit.Kernel

/- The system calls (`systemcall.c`) and the file operations behind them.

   `execute` and `halt` are split where the code is: parsing, the executable check,
   the process table (`Proc.launch`, `Proc.release`), paging and the image. Both
   leave the kernel without returning, so an `Outcome` says how a call ended. What a
   call reads from memory it did not set (uninitialised locals, the stack registers)
   is an `ExecEnv`.

   `open` scans the descriptor table without a bound; past its eight entries it
   reads the fields behind them as entries, fails if it meets a zero word there and
   otherwise runs away: `past` says which.

   Correspondence:
     `read` .. `getargs`                        ↔ the same names (`open` ↔ `openFile`)
     `read_func`, `write_func`                  ↔ `readFunc`, `writeFunc`
     `regular_file_read`, `directory_file_read` ↔ `regularFileRead`, `directoryFileRead`
   A buffer is the caller's own memory: calls return the bytes they store in it.
   `Delivery` has the stores themselves, wherever the buffer lies. -/
namespace Flipit
open Bytes

def ascii (s : String) : List UInt8 := s.toList.map fun c => UInt8.ofNat c.toNat

/-- How a call leaves the kernel: back to its caller with a value and the bytes stored
in its buffer, by `iret` into a new process, by a jump into the suspended `execute`
of the parent, or on the stack of another terminal. -/
inductive Outcome where
  | returned (ret : Int) (data : List UInt8)
  | entered (entry : Nat)
  | resumed (esp ebp : Nat) (retVal : Nat)
  | switched (esp ebp : Nat)
  deriving DecidableEq

/-- What `execute` finds in its registers and uninitialised locals. -/
structure ExecEnv where
  esp : Nat
  ebp : Nat
  tempRead : Memory
  entryBuf : Memory

def zeroEnv : ExecEnv := ⟨0, 0, fun _ => 0, fun _ => 0⟩

/-- The address of a local array: any but `NULL`. -/
def localBuf : Nat := 1

/-- An uninitialised `dentry_t`. -/
def Dentry.local : Dentry := ⟨fun _ => 0, 0, 0⟩

/-! ## Parsing a command -/

/-- The bytes that end a command. -/
def isEnd (c : UInt8) : Bool := c == 0 || c == 0x0A || c == 0x09 || c == 0x0D

/-- The file name and the argument string of a command, `none` where `execute` refuses
it. The bytes end with the terminator, which the list may leave out. -/
def parseCommand (command : List UInt8) : Option (List UInt8 × List UInt8) :=
  if isEnd (command.headD 0) then none
  else
    let s := command.dropWhile (· == 0x20)
    if isEnd (s.headD 0) then none
    else
      let name := s.takeWhile fun c => !isEnd c && c != 0x20
      if name.length > 32 then none
      else
        let rest := (s.drop name.length).dropWhile (· == 0x20)
        -- the argument loop also stops when the index into the command reaches 128
        let i := command.length - rest.length
        some (name, (rest.takeWhile fun c => !isEnd c).take (128 - i))

/-! ## The process table -/

namespace Proc

/-- `terminal[t].active_process`. -/
def active (s : Proc) (t : Int) : Option (Fin 8) := (s.term t).activeProcess

/-- The allocation scan: the first pid that is not taken. -/
def freePid (s : Proc) : Option (Fin 8) := (List.finRange 8).find? fun i => s.pidArray i != 1

/-- The block `execute` leaves in its slot. Entries 0 and 1 get their table and become
active, the other fields of the table stay; `parent_pcb` is written only if the
terminal has an active process, and the stack registers only if it is not `NULL`. -/
def newPcb (s : Proc) (t : Int) (i : Fin 8) (arg : List UInt8) (esp ebp : Nat) : Pcb :=
  let old := s.pcb i
  let fds := old.fileDescriptorTable
  let fds := Function.update fds 0 { fds 0 with fOp := some .stdin, active := 1 }
  let fds := Function.update fds 1 { fds 1 with fOp := some .stdout, active := 1 }
  -- the root case leaves what the last owner of the slot had
  let parent := match s.active t with
    | none => old.parentPcb
    | some a => some a
  { fileDescriptorTable := fds
    pid := i
    esp := if parent.isSome then esp else old.esp
    ebp := if parent.isSome then ebp else old.ebp
    parentPcb := parent
    esp0 := 0x800000 - i.val * 0x2000 - 4
    ss0 := 0x18
    arg := overlay old.arg 0 (arg ++ [0]) }

/-- The process table after `execute` gave slot `i` to a new process of terminal `t`. -/
def launch (s : Proc) (t : Int) (i : Fin 8) (arg : List UInt8) (esp ebp : Nat) : Proc :=
  let old := s.term t
  { s with
    pidArray := Function.update s.pidArray i 1
    pcb := Function.update s.pcb i (s.newPcb t i arg esp ebp)
    term := Function.update s.term t
      { old with
        currentPcb := some i
        activeProcess := some i
        previousProcess := match old.activeProcess with
          | none => old.previousProcess
          | some a => some a }
    tss := ⟨0x800000 - i.val * 0x2000 - 4, 0x18⟩ }

/-- Change one descriptor of a slot. -/
def onFd (s : Proc) (a fd : Fin 8) (f : FileT → FileT) : Proc :=
  { s with pcb := Function.update s.pcb a { s.pcb a with
      fileDescriptorTable := Function.update (s.pcb a).fileDescriptorTable fd
        (f ((s.pcb a).fileDescriptorTable fd)) } }

/-- The closing loop of `halt` from `fd` on, with `left` entries of the table left; behind
the table lies `parent_pcb`, which is never 1. -/
def closeLoop (fds : Fin 8 → FileT) : Nat → Nat → Fin 8 → FileT
  | 0, _ => fds
  | left + 1, fd =>
    if (fds (Fin.ofNat 8 fd)).active = 1 then
      closeLoop (Function.update fds (Fin.ofNat 8 fd) { fds (Fin.ofNat 8 fd) with active := 0 })
        left (fd + 1)
    else fds

/-- The first part of `halt`: the status and the descriptors of the halting slot. -/
def closeAll (s : Proc) (a : Fin 8) (status : UInt8) : Proc :=
  { s with
    retVal := status.toNat
    pcb := Function.update s.pcb a { s.pcb a with
      fileDescriptorTable := closeLoop (s.pcb a).fileDescriptorTable 6 2 } }

/-- Zero the first 128 bytes. -/
def clearArg (arg : Memory) : Memory := fun i => if i < 128 then 0 else arg i

/-- `halt` of slot `a` back to its parent `p`, once the descriptors are closed. -/
def release (s : Proc) (t : Int) (a p : Fin 8) : Proc :=
  { s with
    pidArray := Function.update s.pidArray (s.pcb a).pid 0
    tss := ⟨(s.pcb p).esp0, (s.pcb p).ss0⟩
    pcb := Function.update s.pcb p { s.pcb p with arg := clearArg (s.pcb p).arg }
    term := Function.update s.term t { s.term t with activeProcess := some p } }

/-- `halt` of a process without a parent, up to the restart of the shell: it frees
entry 0. -/
def releaseRoot (s : Proc) (t : Int) : Proc :=
  { s with
    pidArray := Function.update s.pidArray 0 0
    term := Function.update s.term t { s.term t with activeProcess := none } }

section
variable {s : Proc} {t u : Int} {a i p : Fin 8} {arg : List UInt8} {esp ebp : Nat} {status : UInt8}

@[simp] theorem launch_active : (s.launch t i arg esp ebp).active t = some i := by
  simp [launch, active]

theorem launch_active_ne (h : u ≠ t) : (s.launch t i arg esp ebp).active u = s.active u := by
  simp [launch, active, Function.update_of_ne h]

@[simp] theorem launch_pcb : (s.launch t i arg esp ebp).pcb i = s.newPcb t i arg esp ebp :=
  Function.update_self ..

theorem launch_pcb_ne (h : p ≠ i) : (s.launch t i arg esp ebp).pcb p = s.pcb p :=
  Function.update_of_ne h ..

theorem newPcb_parent_root (h : s.active t = none) :
    (s.newPcb t i arg esp ebp).parentPcb = (s.pcb i).parentPcb := by
  simp [newPcb, h]

theorem newPcb_parent_child (h : s.active t = some a) :
    (s.newPcb t i arg esp ebp).parentPcb = some a := by
  simp [newPcb, h]

theorem closeAll_pcb_ne (h : p ≠ a) : (s.closeAll a status).pcb p = s.pcb p :=
  Function.update_of_ne h ..

theorem closeAll_pcb (s : Proc) (a p : Fin 8) (status : UInt8) :
    ∃ fds, (s.closeAll a status).pcb p = { s.pcb p with fileDescriptorTable := fds } := by
  by_cases h : p = a
  · subst h; exact ⟨_, Function.update_self ..⟩
  · exact ⟨_, closeAll_pcb_ne h⟩

@[simp] theorem closeAll_parent : ((s.closeAll a status).pcb p).parentPcb = (s.pcb p).parentPcb := by
  obtain ⟨fds, h⟩ := closeAll_pcb s a p status
  rw [h]

@[simp] theorem closeAll_pid : ((s.closeAll a status).pcb p).pid = (s.pcb p).pid := by
  obtain ⟨fds, h⟩ := closeAll_pcb s a p status
  rw [h]

@[simp] theorem release_active : (s.release t a p).active t = some p := by simp [release, active]

theorem release_active_ne (h : u ≠ t) : (s.release t a p).active u = s.active u := by
  simp [release, active, Function.update_of_ne h]

theorem release_pcb_ne {q : Fin 8} (h : q ≠ p) : (s.release t a p).pcb q = s.pcb q :=
  Function.update_of_ne h ..

/-- A return to the parent changes nothing of a block but its argument string. -/
theorem release_pcb (s : Proc) (t : Int) (a p q : Fin 8) :
    ∃ arg, (s.release t a p).pcb q = { s.pcb q with arg := arg } := by
  by_cases h : q = p
  · subst h; exact ⟨_, Function.update_self ..⟩
  · exact ⟨_, release_pcb_ne h⟩

@[simp] theorem release_parent {q : Fin 8} :
    ((s.release t a p).pcb q).parentPcb = (s.pcb q).parentPcb := by
  obtain ⟨arg, h⟩ := release_pcb s t a p q
  rw [h]

@[simp] theorem release_pid {q : Fin 8} : ((s.release t a p).pcb q).pid = (s.pcb q).pid := by
  obtain ⟨arg, h⟩ := release_pcb s t a p q
  rw [h]

@[simp] theorem releaseRoot_active : (s.releaseRoot t).active t = none := by
  simp [releaseRoot, active]

theorem releaseRoot_active_ne (h : u ≠ t) : (s.releaseRoot t).active u = s.active u := by
  simp [releaseRoot, active, Function.update_of_ne h]

theorem freePid_eq_some : s.freePid = some i ↔ s.pidArray i ≠ 1 ∧ ∀ q < i, s.pidArray q = 1 := by
  rw [freePid, ← Fin.find?_eq_find?_finRange, Fin.find?_eq_some_iff]
  simp

theorem freePid_free (h : s.freePid = some i) : s.pidArray i ≠ 1 :=
  (freePid_eq_some.mp h).1

theorem freePid_zero (h : s.pidArray 0 ≠ 1) : s.freePid = some 0 :=
  freePid_eq_some.mpr ⟨h, fun q hq => absurd hq (Fin.not_lt_zero q)⟩

end

end Proc

namespace Kernel

/-- The running process: the active one of the scheduled terminal. -/
def active (k : Kernel) : Option (Fin 8) := k.proc.active k.terminalNum

def ret (k : Kernel) (v : Int) : Option (Outcome × Kernel) := some (.returned v [], k)

/-! ## execute and halt -/

/-- Copy the image into the page of the running process. It fits that page, so it is
one run of physical memory. -/
def loadImage (k : Kernel) (bytes : List UInt8) : Option Kernel :=
  (k.paging.translate ⟨false, true⟩ 0x08048000).map fun a => { k with mem := overlay k.mem a bytes }

/-- The executable check: the first four bytes of the file, over what the local array
held. -/
def isElf (fs : Fs) (env : ExecEnv) (inode : Nat) : Bool :=
  let head := overlay env.tempRead 0 (readData fs inode 0 localBuf 32).2
  head 0 == 0x7f && head 1 == 0x45 && head 2 == 0x4c && head 3 == 0x46

/-- The entry point: bytes 24 to 27 of the file, over what the local array held. -/
def entryPoint (fs : Fs) (env : ExecEnv) (inode : Nat) : Nat :=
  word (overlay env.entryBuf 0 (readData fs inode 24 localBuf 4).2) 0

/-- The part of `execute` after its checks, with the pid it found. -/
def start (fs : Fs) (env : ExecEnv) (inode : Nat) (arg : List UInt8) (i : Fin 8) (k : Kernel) :
    Option (Outcome × Kernel) :=
  let k := { k with
    proc := k.proc.launch k.terminalNum i arg env.esp env.ebp
    paging := k.paging.userPageInit i.val }
  (k.loadImage (readData fs inode 0 0x08048000 (0x400000 - 0x48000)).2).map fun k =>
    (.entered (entryPoint fs env inode), k)

def execute (fs : Fs) (env : ExecEnv) (command : Option (List UInt8)) (k : Kernel) :
    Option (Outcome × Kernel) :=
  match command.bind parseCommand with
  | none => k.ret (-1)
  | some (name, arg) =>
    let l := readDentryByName fs (some name) Dentry.local k.fnameLength
    let k := { k with fnameLength := l.fnameLength }
    if l.ret = -1 then k.ret (-1)
    else if !isElf fs env l.dentry.inode then k.ret (-1)
    else match k.proc.freePid with
      | none => (k.puts (ascii "Exception: too many processes!\n")).bind fun k => k.ret (-1)
      | some i => start fs env l.dentry.inode arg i k

/-- `execute("shell")`, where a return would run into a `NULL` dereference. -/
def launchShell (fs : Fs) (env : ExecEnv) (k : Kernel) : Option (Outcome × Kernel) :=
  (execute fs env (some (ascii "shell")) k).bind fun
    | (.entered entry, k) => some (.entered entry, k)
    | _ => none

def halt (fs : Fs) (env : ExecEnv) (status : UInt8) (k : Kernel) : Option (Outcome × Kernel) :=
  k.active.bind fun a =>
    let k := { k with proc := k.proc.closeAll a status }
    let pcb := k.proc.pcb a
    match pcb.parentPcb with
    | some p =>
      -- into the `execute` that started this process: its parent's, or, if a root shell
      -- found a parent in its slot, the one of the tick that launched it
      some (.resumed pcb.esp pcb.ebp status.toNat,
        { k with
          paging := k.paging.userPageInit (k.proc.pcb p).pid.val
          proc := k.proc.release k.terminalNum a p })
    | none =>
      ({ k with proc := k.proc.releaseRoot k.terminalNum }.puts
        (ascii "restarting the shell\n")).bind (launchShell fs env)

/-! ## Files -/

/-- `regular_file_read`. -/
def regularFileRead (fs : Fs) (k : Kernel) (a fd : Fin 8) (buf : Nat) (count : Nat) :
    Option (Outcome × Kernel) :=
  if buf = 0 then (k.puts (ascii "INVALID BUFFER!\n")).bind fun k => k.ret (-1)
  else
    let f := (k.proc.pcb a).fileDescriptorTable fd
    let r := readData fs f.inode f.fOffset buf count
    some (.returned r.1 r.2, { k with
      proc := k.proc.onFd a fd fun f => { f with fOffset := ((f.fOffset + r.1) % 2 ^ 32).toNat } })

/-- `directory_file_read`. -/
def directoryFileRead (fs : Fs) (k : Kernel) (a fd : Fin 8) (buf : Nat) (length : Nat) :
    Option (Outcome × Kernel) :=
  if buf = 0 then k.ret (-1)
  else
    let offset := ((k.proc.pcb a).fileDescriptorTable fd).fOffset
    let l := readDentryByIndex fs offset Dentry.local k.fnameLength
    let k := { k with fnameLength := l.fnameLength }
    if l.ret = -1 then k.ret (-1)
    else if offset ≥ fs.dentryCount then k.ret 0
    else
      let length := min (min length 32) l.fnameLength
      some (.returned length ((List.range length).map l.dentry.fileName), { k with
        proc := k.proc.onFd a fd fun f => { f with fOffset := w32 (f.fOffset + 1) } })

/-- `regular_file_write` and `directory_file_write`. -/
def writeNotImplemented (k : Kernel) : Option (Outcome × Kernel) :=
  (k.puts (ascii "... Write function not implemented yet!\nNow returning...!\n")).bind fun k => k.ret 0

/-- `read_func`: a jump through a `NULL` table or entry faults. -/
def readFunc (fs : Fs) (k : Kernel) (a fd : Fin 8) (buf : Nat) (nbytes : Int) :
    Option (Outcome × Kernel) :=
  match ((k.proc.pcb a).fileDescriptorTable fd).fOp with
  | none => none
  -- `terminal_read` waits for its flag: no step until it is up
  | some .stdin => (k.terminalRead buf nbytes).map fun r => (.returned r.1.1 r.1.2, r.2)
  | some .stdout => none
  | some .rtc => k.rtcRead.2.ret k.rtcRead.1
  | some .file => regularFileRead fs k a fd buf nbytes.toNat
  | some .dir => directoryFileRead fs k a fd buf nbytes.toNat

/-- `write_func`. -/
def writeFunc (k : Kernel) (a fd : Fin 8) (buf : Option Memory) (nbytes : Int) :
    Option (Outcome × Kernel) :=
  match ((k.proc.pcb a).fileDescriptorTable fd).fOp with
  | none => none
  | some .stdin => none
  | some .stdout => (k.terminalWrite buf nbytes).bind fun r => r.2.ret r.1
  | some .rtc => (k.rtcWrite buf nbytes).2.ret (k.rtcWrite buf nbytes).1
  | some .file => k.writeNotImplemented
  | some .dir => k.writeNotImplemented

/-- The entry of the table a descriptor in range names. -/
def fdIndex (fd : Int) : Fin 8 := Fin.ofNat 8 fd.toNat

def read (fs : Fs) (fd : Int) (buf : Nat) (nbytes : Int) (k : Kernel) : Option (Outcome × Kernel) :=
  if fd < 0 ∨ fd > 7 ∨ buf = 0 ∨ nbytes < 0 then k.ret (-1)
  else k.active.bind fun a =>
    if ((k.proc.pcb a).fileDescriptorTable (fdIndex fd)).active ≠ 1 then k.ret (-1)
    else if fd = 1 then k.ret (-1)
    else readFunc fs k a (fdIndex fd) buf nbytes

def write (fd : Int) (buf : Option Memory) (nbytes : Int) (k : Kernel) : Option (Outcome × Kernel) :=
  if fd < 0 ∨ fd > 7 ∨ buf.isNone ∨ nbytes < 0 then k.ret (-1)
  else k.active.bind fun a =>
    if ((k.proc.pcb a).fileDescriptorTable (fdIndex fd)).active ≠ 1 then k.ret (-1)
    else if fd = 0 then k.ret (-1)
    else writeFunc k a (fdIndex fd) buf nbytes

/-- The scan of `open` inside the table. -/
def firstInactive (fds : Fin 8 → FileT) : Option (Fin 8) :=
  (List.finRange 8).find? fun fd => (fds fd).active == 0

/-- `open`. -/
def openFile (fs : Fs) (filename : Option (List UInt8)) (past : Bool) (k : Kernel) :
    Option (Outcome × Kernel) :=
  k.active.bind fun a =>
    match firstInactive (k.proc.pcb a).fileDescriptorTable with
    | none => if past then k.ret (-1) else none
    | some fd =>
      let l := readDentryByName fs filename Dentry.local k.fnameLength
      let k := { k with fnameLength := l.fnameLength }
      if l.ret ≥ 0 then
        match l.dentry.fileType with
        | 0 => { k with proc := k.proc.onFd a fd fun _ => ⟨some .rtc, 0, 0, 1⟩ }.rtcOpen.ret fd.val
        | 1 => { k with proc := k.proc.onFd a fd fun _ => ⟨some .dir, 0, 0, 1⟩ }.ret fd.val
        | 2 => { k with proc := k.proc.onFd a fd fun _ => ⟨some .file, l.dentry.inode, 0, 1⟩ }.ret fd.val
        | _ => k.ret (-1)
      else k.ret (-1)

def close (fd : Int) (k : Kernel) : Option (Outcome × Kernel) :=
  if fd < 0 ∨ fd > 7 then k.ret (-1)
  else if fd = 0 ∨ fd = 1 then k.ret (-1)
  else k.active.bind fun a =>
    if ((k.proc.pcb a).fileDescriptorTable (fdIndex fd)).active = 0 then k.ret (-1)
    else { k with proc := k.proc.onFd a (fdIndex fd) fun f => { f with active := 0 } }.ret 0

/-! ## Arguments and video -/

/-- The answer of `getargs` for an argument string. -/
def getargsOf (arg : Memory) (nbytes : Int) : Int × List UInt8 :=
  let n := strlen arg 128
  if n = 0 then (-1, [])
  else (0, (List.range (if (n : Int) ≤ nbytes then n + 1 else nbytes.toNat)).map arg)

def getargs (buf : Nat) (nbytes : Int) (k : Kernel) : Option (Outcome × Kernel) :=
  if buf = 0 ∨ nbytes ≤ 0 then k.ret (-1)
  else k.active.bind fun a =>
    let r := getargsOf (k.proc.pcb a).arg nbytes
    some (.returned r.1 r.2, k)

/-- `vidmap`: the four bytes it stores at `screen_start` are the address of the page. -/
def vidmap (screenStart : Nat) (k : Kernel) : Option (Outcome × Kernel) :=
  if screenStart < 0x08000000 ∨ screenStart ≥ 0x08400000 then k.ret (-1)
  else some (.returned 0 [0x00, 0x00, 0xC0, 0xFF], k)

end Kernel

end Flipit

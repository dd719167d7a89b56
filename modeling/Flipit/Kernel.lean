import Flipit.Filesystem
import Flipit.Screen
import Flipit.TerminalDriver

/- The state of the kernel, and the routines that are not system calls: the console
   over physical memory, the visible switch, the keyboard and the RTC.

   `terminal_t` is spread over the subsystems that own its fields: the console's
   (`Cursor`), the driver's (`Line`), the scheduler's (`TermProc`) and `RTC_flag`.
   The array is indexed by `terminal_num`, which is -1 until the first tick, so it
   is a function of an `Int`. A process control block lies at
   8MB - (pid + 1) * 8KB; a pointer to one is its slot, `NULL` is `none`.

   A routine that faults (an unmapped store, a `NULL` dereference) or never returns
   gives `none`: the exception handlers print and spin.

   Correspondence:
     `file_t`, `pcb_t`, `terminal_t`, `tss_t`      ↔ `FileT`, `Pcb`, `TermProc`, `Tss`
     `putc`, `putc_keyboard`, `puts`, `clear`      ↔ the same names
     `term_visible_switch`                         ↔ `Kernel.termVisibleSwitch`
     `add_to_buffer`                               ↔ `Kernel.addToBuffer`
     `RTC_open` .. `RTC_interrupt_handler`         ↔ `rtcOpen` .. `rtcInterruptHandler` -/
namespace Flipit
open Bytes

/-- The jump tables a descriptor can point to. -/
inductive OpTable where
  | stdin
  | stdout
  | rtc
  | file
  | dir
  deriving DecidableEq

/-- `file_t`. -/
structure FileT where
  fOp : Option OpTable
  inode : Nat
  fOffset : Nat
  active : Nat
  deriving DecidableEq

/-- `pcb_t`. -/
structure Pcb where
  fileDescriptorTable : Fin 8 → FileT
  pid : Fin 8
  esp : Nat
  ebp : Nat
  parentPcb : Option (Fin 8)
  esp0 : Nat
  ss0 : Nat
  arg : Memory

/-- The scheduling fields of `terminal_t`. -/
structure TermProc where
  currentPcb : Option (Fin 8)
  activeProcess : Option (Fin 8)
  previousProcess : Option (Fin 8)
  esp : Nat
  ebp : Nat
  deriving DecidableEq

/-- The fields of the task state segment that change. -/
structure Tss where
  esp0 : Nat
  ss0 : Nat
  deriving DecidableEq

/-- The process table, and the globals of `systemcall.c` and `scheduler.c`. -/
structure Proc where
  pidArray : Fin 8 → Nat
  pcb : Fin 8 → Pcb
  term : Int → TermProc
  tss : Tss
  retVal : Nat
  esp : Nat
  ebp : Nat

structure Kernel where
  mem : Memory
  paging : Paging
  cursor : Int → Cursor
  input : Input UInt8
  proc : Proc
  terminalNum : Int
  currentVisible : Int
  rtcFlag : Int → Int
  rtcRate : Nat
  fnameLength : Nat

/-- The indices of the terminal array. -/
def isTerm (t : Int) : Bool := t == 0 || t == 1 || t == 2

theorem isTerm_of_range {t : Int} (h : 0 ≤ t ∧ t ≤ 2) : isTerm t = true := by
  simp only [isTerm, Bool.or_eq_true, beq_iff_eq]
  omega

/-- Zeroed memory, as the C globals and the PCB slots hold it at boot. -/
def FileT.zero : FileT := ⟨none, 0, 0, 0⟩
def Pcb.zero : Pcb := ⟨fun _ => .zero, 0, 0, 0, none, 0, 0, fun _ => 0⟩
def TermProc.zero : TermProc := ⟨none, none, none, 0, 0⟩
def Proc.zero : Proc := ⟨fun _ => 0, fun _ => .zero, fun _ => .zero, ⟨0x800000, 0x18⟩, 0, 0, 0⟩

/-- Before the first tick: paging is set up and no process has been started. -/
def Kernel.boot (p : Paging) (mem : Memory) : Kernel where
  mem := mem
  paging := p.pagingInit
  cursor := fun _ => ⟨0, 0, 0⟩
  input := ⟨fun _ => 0, 0, fun _ => ⟨fun _ => 0, 0, 0⟩⟩
  proc := .zero
  terminalNum := -1
  currentVisible := 0
  rtcFlag := fun _ => 0
  rtcRate := 6
  fnameLength := 0

namespace Kernel

/-! ## Console -/

/-- `putc`: the cursor of the scheduled terminal, through the page at 0xB8000. -/
def putc (k : Kernel) (c : UInt8) : Option Kernel :=
  (k.paging.putcVia 0xB8000 c k.mem (k.cursor k.terminalNum)).map fun (m, cur) =>
    { k with mem := m, cursor := Function.update k.cursor k.terminalNum cur }

/-- `putc_keyboard`: the cursor of the visible terminal, through the back door. -/
def putcKeyboard (k : Kernel) (c : UInt8) : Option Kernel :=
  (k.paging.putcVia 0xBC000 c k.mem (k.cursor k.currentVisible)).map fun (m, cur) =>
    { k with mem := m, cursor := Function.update k.cursor k.currentVisible cur }

/-- `puts`, and `printf` of a text without conversions. -/
def puts (k : Kernel) (s : List UInt8) : Option Kernel := s.foldlM putc k

/-- `clear`: it blanks the scheduled terminal's page and homes the visible one's cursor. -/
def clear (k : Kernel) : Option Kernel :=
  (k.paging.clearVia 0xB8000 k.mem).map fun (m, cur) =>
    { k with mem := m, cursor := Function.update k.cursor k.currentVisible cur }

/-- A user store at the virtual address `v`. -/
def userStore (k : Kernel) (v : Nat) (b : UInt8) : Option Kernel :=
  (k.paging.translate ⟨true, true⟩ v).map fun a => { k with mem := Function.update k.mem a b }

/-- `term_page_switch`. -/
def termPageSwitch (k : Kernel) : Kernel :=
  { k with paging := k.paging.termPageSwitch k.currentVisible k.terminalNum }

/-- `term_visible_switch`: save the VGA page in the backup of the terminal that leaves,
load the backup of the one that comes, then refresh the mapping. -/
def termVisibleSwitch (k : Kernel) (dest : Fin 3) : Option Kernel :=
  if k.currentVisible = 0 ∨ k.currentVisible = 1 ∨ k.currentVisible = 2 then
    (k.paging.copyPage k.mem ((185 + k.currentVisible.toNat) * 4096) 0xBC000).bind fun m =>
      (k.paging.copyPage m 0xBC000 ((185 + dest.val) * 4096)).map fun m =>
        { k with mem := m, currentVisible := (dest.val : Int) }.termPageSwitch
  else some k.termPageSwitch

/-! ## Keyboard and RTC -/

/-- `add_to_buffer`. -/
def addToBuffer (k : Kernel) (c : UInt8) : Option Kernel :=
  let (inp, echo) := k.input.addToBuffer k.currentVisible c
  if echo then { k with input := inp }.putcKeyboard c else some { k with input := inp }

/-- Ctrl+L: `clear`, then `clear_buffer`. -/
def controlL (k : Kernel) : Option Kernel :=
  k.clear.map fun k => { k with input := k.input.onLine k.currentVisible Line.clearBuffer }

/-- `terminal_read`. -/
def terminalRead (k : Kernel) (buf : Nat) (nbytes : Int) : Option ((Int × List UInt8) × Kernel) :=
  (k.input.terminalRead k.terminalNum buf nbytes).map fun (ret, data, inp) =>
    ((ret, data), { k with input := inp })

/-- `terminal_write`. -/
def terminalWrite (k : Kernel) (buf : Option Memory) (nbytes : Int) : Option (Int × Kernel) :=
  if nbytes < 0 then some (-1, k)
  else match buf with
    | none => some (-1, k)
    | some s => (k.puts ((List.range nbytes.toNat).map s)).map fun k => (nbytes, k)

def rtcInterruptHandler (k : Kernel) : Kernel :=
  { k with rtcFlag := fun t => if isTerm t then 0 else k.rtcFlag t }

/-- `RTC_open`: 2 Hz, rate 15. -/
def rtcOpen (k : Kernel) : Kernel := { k with rtcRate := 15 }

/-- `RTC_read`: it raises the flag and returns after the next RTC interrupt. -/
def rtcRead (k : Kernel) : Int × Kernel :=
  (0, { k with rtcFlag := Function.update k.rtcFlag k.terminalNum 1 }.rtcInterruptHandler)

/-- The loop of `RTC_write`: halve the frequency down to 2, lowering the rate. -/
def rtcRateLoop : Nat → Nat → Nat → Nat
  | 0, _, rate => rate
  | fuel + 1, frequency, rate =>
    if frequency = 2 then rate else rtcRateLoop fuel (frequency / 2) (rate - 1)

/-- `RTC_write`: a power of two from 2 to 1024, from the first four bytes of the buffer. -/
def rtcWrite (k : Kernel) (buf : Option Memory) (nbytes : Int) : Int × Kernel :=
  match buf with
  | none => (-1, k)
  | some s =>
    let frequency := toInt32 (word s 0)
    if nbytes ≤ 0 then (-1, k)
    else if frequency > 1024 ∨ frequency < 2 then (-1, k)
    else if frequency.toNat &&& (frequency.toNat - 1) ≠ 0 then (-1, k)
    else (0, { k with rtcRate := rtcRateLoop 10 frequency.toNat 15 })

end Kernel

end Flipit

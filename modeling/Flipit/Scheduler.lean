import Flipit.Machine
import Flipit.SystemCall

/- The scheduler (`scheduler.c`) and the kernel as one machine.

   A tick captures the stack registers, moves `terminal_num` on and either launches
   the terminal's first shell or switches to its active process. The captured
   registers belong to the terminal that was preempted and go into the entry of the
   terminal that comes next, so the ones loaded for terminal t come out of entry
   t + 1 (mod 3).

   `Event` is everything the kernel reacts to, each taken as one atomic step: ticks,
   keys, the RTC and the calls and stores of the running process. An event that
   blocks, or during which the kernel faults, is no step. Ticks inside `halt`, which
   runs with interrupts on, are the subject of `HaltSteps` and the modules over it;
   ticks inside other calls are in no run here. A key is taken to come back to what
   it interrupted, although its gate holds no wrapper (`InterruptGates`).

   For each event one lemma says what the step can do to the state (`step_cases` and
   the lemmas before it); the results about runs use these and never unfold a call.
   To the paging structures a step does one or two of the operations of `Mmu`, so
   they stay in the family of tables (`mapped_run`).

   Correspondence:
     `scheduler`                  ↔ `Kernel.scheduler`
     `keyboard_interrupt_handler` ↔ the events `key`, `controlL` and `altF` it
                                    decodes a scan code to -/
namespace Flipit
open Bytes

namespace Kernel

/-- The entries a tick initialises: all three, on the first one. -/
def fresh (k : Kernel) (t : Int) : Bool := k.terminalNum == -1 && isTerm t

/-- The first part of a tick: the captured registers, and on the first tick the three
terminal structures. -/
def tickInit (esp ebp : Nat) (k : Kernel) : Kernel :=
  { k with
    cursor := fun t => if k.fresh t then ⟨0, 0, 0⟩ else k.cursor t
    input := { k.input with
      line := fun t =>
        if k.fresh t then ⟨(k.input.line t).keyboardBuffer, 0, -1⟩ else k.input.line t }
    proc := { k.proc with
      esp := esp
      ebp := ebp
      term := fun t => if k.fresh t then .zero else k.proc.term t }
    rtcFlag := fun t => if k.fresh t then 0 else k.rtcFlag t }

end Kernel

namespace Proc

/-- Store the captured registers in entry `t`. -/
def saveContext (s : Proc) (t : Int) (esp ebp : Nat) : Proc :=
  { s with term := Function.update s.term t { s.term t with esp := esp, ebp := ebp } }

/-- The terminal whose entry holds the context of terminal `t`. -/
def nextTerm (t : Int) : Int := (t + 1) % 3

/-- The table after the switch to process `a` of terminal `t`: the registers of
entry `t + 1` are loaded, `tss` is set for the process. -/
def switchTo (s : Proc) (t : Int) (a : Fin 8) (esp ebp : Nat) : Proc :=
  let s := s.saveContext t esp ebp
  { s with
    esp := (s.term (nextTerm t)).esp
    ebp := (s.term (nextTerm t)).ebp
    tss := ⟨(s.pcb a).esp0, 0x18⟩ }

@[simp] theorem saveContext_active (s : Proc) (t u : Int) (esp ebp : Nat) :
    (s.saveContext t esp ebp).active u = s.active u := by
  by_cases hu : u = t
  · subst hu; simp [saveContext, active]
  · simp [saveContext, active, Function.update_of_ne hu]

@[simp] theorem switchTo_active (s : Proc) (t u : Int) (a : Fin 8) (esp ebp : Nat) :
    (s.switchTo t a esp ebp).active u = s.active u :=
  s.saveContext_active t u esp ebp

end Proc

namespace Kernel

/-- `scheduler`, entered with these registers. -/
def scheduler (fs : Fs) (env : ExecEnv) (esp ebp : Nat) (k : Kernel) : Option (Outcome × Kernel) :=
  let k := k.tickInit esp ebp
  let k := { k with terminalNum := (k.terminalNum + 1) % 3 }
  -- from here on the entry of `terminal_num` receives the preempted terminal's registers
  match k.active with
  | none => launchShell fs env
      { k with proc := k.proc.saveContext k.terminalNum esp ebp }.termPageSwitch
  | some a =>
    let k := { k with
      proc := k.proc.switchTo k.terminalNum a esp ebp
      paging := k.paging.userPageInit (k.proc.pcb a).pid.val }.termPageSwitch
    some (.switched k.proc.esp k.proc.ebp, k)

end Kernel

/-- What the kernel reacts to. -/
inductive Event where
  | tick (esp ebp : Nat) (env : ExecEnv)
  | key (c : UInt8)
  | controlL
  | altF (dest : Fin 3)
  | rtc
  | execute (command : Option (List UInt8)) (env : ExecEnv)
  | halt (status : UInt8) (env : ExecEnv)
  | read (fd : Int) (buf : Nat) (nbytes : Int)
  | write (fd : Int) (buf : Option Memory) (nbytes : Int)
  | openFile (filename : Option (List UInt8)) (past : Bool)
  | close (fd : Int)
  | getargs (buf : Nat) (nbytes : Int)
  | vidmap (screenStart : Nat)
  | store (v : Nat) (b : UInt8)

def Event.isOpen : Event → Bool
  | .openFile _ _ => true
  | _ => false

namespace Kernel

def done (k : Kernel) : Outcome × Kernel := (.returned 0 [], k)

/-- A call of the running process: there is one. -/
def call (k : Kernel) (f : Kernel → Option (Outcome × Kernel)) : Option (Outcome × Kernel) :=
  if k.active.isSome then f k else none

def step (fs : Fs) (k : Kernel) : Event → Option (Outcome × Kernel)
  | .tick esp ebp env => k.scheduler fs env esp ebp
  | .key c => (k.addToBuffer c).map done
  | .controlL => k.controlL.map done
  | .altF dest => (k.termVisibleSwitch dest).map done
  | .rtc => some k.rtcInterruptHandler.done
  | .execute command env => k.call (execute fs env command)
  | .halt status env => k.call (halt fs env status)
  | .read fd buf nbytes => k.call (read fs fd buf nbytes)
  | .write fd buf nbytes => k.call (write fd buf nbytes)
  | .openFile filename past => k.call (openFile fs filename past)
  | .close fd => k.call (close fd)
  | .getargs buf nbytes => k.call (getargs buf nbytes)
  | .vidmap screenStart => k.call (vidmap screenStart)
  | .store v b => k.call fun k => (k.userStore v b).map done

/-- The call gets to `RTC_read`. -/
def CallsRtcRead (k : Kernel) : Event → Prop
  | .read fd buf nbytes => ¬ (fd < 0 ∨ fd > 7 ∨ buf = 0 ∨ nbytes < 0) ∧ fd ≠ 1 ∧
      ∃ a, k.active = some a ∧ ((k.proc.pcb a).fileDescriptorTable (fdIndex fd)).active = 1 ∧
        ((k.proc.pcb a).fileDescriptorTable (fdIndex fd)).fOp = some .rtc
  | _ => False

instance (k : Kernel) : (e : Event) → Decidable (k.CallsRtcRead e)
  | .read _ _ _ => inferInstanceAs (Decidable (_ ∧ _ ∧ _))
  | .tick _ _ _ | .key _ | .controlL | .altF _ | .rtc | .execute _ _ | .halt _ _ | .write _ _ _
  | .openFile _ _ | .close _ | .getargs _ _ | .vidmap _ | .store _ _ => .isFalse id

/-! ## What a step can do -/

variable {fs : Fs} {k k' : Kernel} {o : Outcome} {e : Event}

theorem putc_frame {c : UInt8} (h : k.putc c = some k') :
    ∃ m cur, k' = { k with mem := m, cursor := cur } := by
  obtain ⟨⟨m, cur⟩, -, rfl⟩ := Option.map_eq_some_iff.mp h
  exact ⟨_, _, rfl⟩

theorem puts_cons {c : UInt8} {s : List UInt8} :
    k.puts (c :: s) = (k.putc c).bind fun k => k.puts s := List.foldlM_cons ..

theorem puts_frame {s : List UInt8} (h : k.puts s = some k') :
    ∃ m cur, k' = { k with mem := m, cursor := cur } := by
  induction s generalizing k with
  | nil =>
    obtain rfl : k = k' := Option.some.inj h
    exact ⟨_, _, rfl⟩
  | cons c s ih =>
    rw [puts_cons] at h
    obtain ⟨k1, h1, h2⟩ := Option.bind_eq_some_iff.mp h
    obtain ⟨m, cur, rfl⟩ := putc_frame h1
    obtain ⟨m', cur', rfl⟩ := ih h2
    exact ⟨m', cur', rfl⟩

theorem loadImage_frame {bytes : List UInt8} (h : k.loadImage bytes = some k') :
    ∃ a, k.paging.translate ⟨false, true⟩ 0x08048000 = some a ∧
      k' = { k with mem := overlay k.mem a bytes } := by
  obtain ⟨a, ha, rfl⟩ := Option.map_eq_some_iff.mp h
  exact ⟨a, ha, rfl⟩

/-- The state after slot `i` was given to a new process, with the given memory. -/
def launched (k : Kernel) (env : ExecEnv) (i : Fin 8) (arg : List UInt8) (m : Memory) (n : Nat) :
    Kernel :=
  { k with
    proc := k.proc.launch k.terminalNum i arg env.esp env.ebp
    paging := k.paging.userPageInit i.val
    mem := m
    fnameLength := n }

theorem start_frame {env : ExecEnv} {inode : Nat} {arg : List UInt8} {i : Fin 8}
    (h : start fs env inode arg i k = some (o, k')) :
    ∃ a, o = .entered (entryPoint fs env inode) ∧
      (k.paging.userPageInit i.val).translate ⟨false, true⟩ 0x08048000 = some a ∧
      k' = k.launched env i arg
        (overlay k.mem a (readData fs inode 0 0x08048000 (0x400000 - 0x48000)).2) k.fnameLength := by
  unfold start at h
  obtain ⟨k1, h1, h2⟩ := Option.map_eq_some_iff.mp h
  obtain ⟨a, ha, rfl⟩ := loadImage_frame h1
  obtain ⟨rfl, rfl⟩ := Prod.mk.inj h2
  exact ⟨a, rfl, ha, rfl⟩

/-- The dentry `execute` finds for a file name. -/
def found (fs : Fs) (name : List UInt8) : Dentry :=
  (readDentryByName fs (some name) Dentry.local 0).dentry

theorem readDentryByName_eq (fs : Fs) (name : List UInt8) (d : Dentry) (n m : Nat) :
    readDentryByName fs (some name) d n = readDentryByName fs (some name) d m := by
  simp only [readDentryByName]

/-- `execute` refuses, touching at most the console and `fname_length`, or starts the
executable it found in the first free slot. -/
theorem execute_spec {env : ExecEnv} {command : Option (List UInt8)}
    (h : execute fs env command k = some (o, k')) :
    (∃ m cur n, o = .returned (-1) [] ∧ k' = { k with mem := m, cursor := cur, fnameLength := n }) ∨
    (∃ i name arg n a, command.bind parseCommand = some (name, arg) ∧
      (readDentryByName fs (some name) Dentry.local 0).ret ≠ -1 ∧
      isElf fs env (found fs name).inode = true ∧ k.proc.freePid = some i ∧
      o = .entered (entryPoint fs env (found fs name).inode) ∧
      (k.paging.userPageInit i.val).translate ⟨false, true⟩ 0x08048000 = some a ∧
      k' = k.launched env i arg (overlay k.mem a
        (readData fs (found fs name).inode 0 0x08048000 (0x400000 - 0x48000)).2) n) := by
  unfold execute at h
  cases hc : command.bind parseCommand with
  | none =>
    rw [hc] at h
    obtain ⟨rfl, rfl⟩ := Prod.mk.inj (Option.some.inj h)
    exact .inl ⟨_, _, _, rfl, rfl⟩
  | some q =>
    obtain ⟨name, arg⟩ := q
    rw [hc] at h
    dsimp only at h
    rw [readDentryByName_eq fs name Dentry.local k.fnameLength 0] at h
    split_ifs at h with hret helf
    · -- not in the directory
      obtain ⟨rfl, rfl⟩ := Prod.mk.inj (Option.some.inj h)
      exact .inl ⟨_, _, _, rfl, rfl⟩
    · -- not executable
      obtain ⟨rfl, rfl⟩ := Prod.mk.inj (Option.some.inj h)
      exact .inl ⟨_, _, _, rfl, rfl⟩
    · cases hi : k.proc.freePid with
      | none =>
        rw [hi] at h
        obtain ⟨k1, h1, h2⟩ := Option.bind_eq_some_iff.mp h
        obtain ⟨m, cur, rfl⟩ := puts_frame h1
        obtain ⟨rfl, rfl⟩ := Prod.mk.inj (Option.some.inj h2)
        exact .inl ⟨_, _, _, rfl, rfl⟩
      | some i =>
        rw [hi] at h
        obtain ⟨a, rfl, ha, rfl⟩ := start_frame h
        exact .inr ⟨i, name, arg, _, a, rfl, hret, by simpa [found] using helf, rfl, rfl, ha, rfl⟩

theorem execute_cases {env : ExecEnv} {command : Option (List UInt8)}
    (h : execute fs env command k = some (o, k')) :
    (∃ m cur n, o = .returned (-1) [] ∧ k' = { k with mem := m, cursor := cur, fnameLength := n }) ∨
    (∃ i name arg entry n a bytes, command.bind parseCommand = some (name, arg) ∧
      k.proc.freePid = some i ∧ o = .entered entry ∧
      (k.paging.userPageInit i.val).translate ⟨false, true⟩ 0x08048000 = some a ∧
      k' = k.launched env i arg (overlay k.mem a bytes) n) := by
  rcases execute_spec h with hfail | ⟨i, name, arg, n, a, hp, -, -, hi, ho, ha, hk⟩
  · exact .inl hfail
  · exact .inr ⟨i, name, arg, _, n, a, _, hp, hi, ho, ha, hk⟩

theorem parse_shell : parseCommand (ascii "shell") = some (ascii "shell", []) := by decide

theorem launchShell_cases {env : ExecEnv} (h : launchShell fs env k = some (o, k')) :
    ∃ i entry n a bytes, k.proc.freePid = some i ∧ o = .entered entry ∧
      (k.paging.userPageInit i.val).translate ⟨false, true⟩ 0x08048000 = some a ∧
      k' = k.launched env i [] (overlay k.mem a bytes) n := by
  obtain ⟨⟨o1, k1⟩, h1, h2⟩ := Option.bind_eq_some_iff.mp h
  rcases execute_cases h1 with ⟨m, cur, n, rfl, -⟩ |
    ⟨i, name, arg, entry, n, a, bytes, hp, hi, rfl, ha, rfl⟩
  · cases h2
  · obtain ⟨rfl, rfl⟩ := Prod.mk.inj (Option.some.inj h2)
    rw [Option.bind_some, parse_shell] at hp
    obtain ⟨rfl, rfl⟩ := Prod.mk.inj (Option.some.inj hp)
    exact ⟨i, entry, n, a, bytes, hi, rfl, ha, rfl⟩

/-- The table when the halting slot `a` has closed its descriptors and, having no parent,
given up its terminal. -/
def haltedRoot (k : Kernel) (a : Fin 8) (status : UInt8) : Proc :=
  (k.proc.closeAll a status).releaseRoot k.terminalNum

/-- `halt` returns to the parent, or restarts the shell where there is none. -/
theorem halt_cases {env : ExecEnv} {status : UInt8} (h : halt fs env status k = some (o, k')) :
    ∃ a, k.active = some a ∧
    ((∃ p, (k.proc.pcb a).parentPcb = some p ∧
        o = .resumed (k.proc.pcb a).esp (k.proc.pcb a).ebp status.toNat ∧
        k' = { k with
          paging := k.paging.userPageInit ((k.proc.closeAll a status).pcb p).pid.val
          proc := (k.proc.closeAll a status).release k.terminalNum a p }) ∨
     ((k.proc.pcb a).parentPcb = none ∧ ∃ i entry cur m n, (k.haltedRoot a status).freePid = some i ∧
        o = .entered entry ∧
        k' = { k with proc := k.haltedRoot a status, cursor := cur }.launched env i [] m n)) := by
  obtain ⟨a, ha, h⟩ := Option.bind_eq_some_iff.mp h
  refine ⟨a, ha, ?_⟩
  have hpcb : (k.proc.closeAll a status).pcb a = { k.proc.pcb a with
      fileDescriptorTable := Proc.closeLoop (k.proc.pcb a).fileDescriptorTable 6 2 } :=
    Function.update_self ..
  simp only [hpcb] at h
  cases hp : (k.proc.pcb a).parentPcb with
  | some p =>
    rw [hp] at h
    obtain ⟨rfl, rfl⟩ := Prod.mk.inj (Option.some.inj h)
    exact .inl ⟨p, rfl, rfl, rfl⟩
  | none =>
    rw [hp] at h
    obtain ⟨k1, h1, h2⟩ := Option.bind_eq_some_iff.mp h
    obtain ⟨m, cur, rfl⟩ := puts_frame h1
    obtain ⟨i, entry, n, b, bytes, hi, rfl, -, rfl⟩ := launchShell_cases h2
    exact .inr ⟨rfl, i, entry, cur, _, n, hi, rfl, rfl⟩

/-- The state when a tick has captured its registers and moved on. -/
def ticked (esp ebp : Nat) (k : Kernel) : Kernel :=
  { k.tickInit esp ebp with terminalNum := (k.terminalNum + 1) % 3 }

/-- The state when the tick is about to launch a shell. -/
def readied (esp ebp : Nat) (k : Kernel) : Kernel :=
  { k.ticked esp ebp with
    proc := (k.ticked esp ebp).proc.saveContext ((k.terminalNum + 1) % 3) esp ebp }.termPageSwitch

/-- A tick launches the terminal's shell or switches to its active process. -/
theorem scheduler_cases {env : ExecEnv} {esp ebp : Nat} (h : scheduler fs env esp ebp k = some (o, k')) :
    ((k.ticked esp ebp).active = none ∧ ∃ i entry n a bytes,
      (k.readied esp ebp).proc.freePid = some i ∧ o = .entered entry ∧
      ((k.readied esp ebp).paging.userPageInit i.val).translate ⟨false, true⟩ 0x08048000 = some a ∧
      k' = (k.readied esp ebp).launched env i [] (overlay k.mem a bytes) n) ∨
    (∃ a, (k.ticked esp ebp).active = some a ∧ o = .switched k'.proc.esp k'.proc.ebp ∧
      k' = { k.ticked esp ebp with
        proc := (k.ticked esp ebp).proc.switchTo ((k.terminalNum + 1) % 3) a esp ebp
        paging := k.paging.userPageInit ((k.ticked esp ebp).proc.pcb a).pid.val }.termPageSwitch) := by
  unfold scheduler at h
  change (match (k.ticked esp ebp).active with | none => _ | some a => _) = _ at h
  cases ha : (k.ticked esp ebp).active with
  | none =>
    rw [ha] at h
    obtain ⟨i, entry, n, a, bytes, hi, rfl, ht, rfl⟩ := launchShell_cases h
    exact .inl ⟨rfl, i, entry, n, a, bytes, hi, rfl, ht, rfl⟩
  | some a =>
    rw [ha] at h
    obtain ⟨rfl, rfl⟩ := Prod.mk.inj (Option.some.inj h)
    exact .inr ⟨a, rfl, rfl, rfl⟩

/-- The paging structures and the indices they depend on. -/
def mmu (k : Kernel) : Mmu := ⟨k.paging, k.terminalNum, k.currentVisible⟩

/-- A change of a descriptor that the event can make: only `open` makes one active, and
one that becomes inactive is not one of the first two. -/
def FdChange (e : Event) (fd : Fin 8) (f : FileT → FileT) : Prop :=
  ∀ x, (f x).active = x.active ∨ (f x).active = 1 ∧ e.isOpen = true ∨ (f x).active = 0 ∧ 2 ≤ fd.val

/-- The descriptor of slot `a` that the event can change: the one it names, for `open` one
that is inactive. -/
def Target (k : Kernel) (a fd : Fin 8) : Event → Prop
  | .read g _ _ => (fd.val : Int) = g
  | .close g => (fd.val : Int) = g
  | .openFile _ _ => ((k.proc.pcb a).fileDescriptorTable fd).active = 0
  | _ => False

/-- The table changed in one descriptor of the running process. -/
structure Descriptor (e : Event) (k k' : Kernel) (a fd : Fin 8) (f : FileT → FileT) : Prop where
  active : k.active = some a
  target : Target k a fd e
  proc : k'.proc = k.proc.onFd a fd f
  flag : FdChange e fd f

/-- A step that returns: the scheduled terminal stays, the tables change only by a visible
switch, and of the process table at most one descriptor changes. -/
structure Quiet (e : Event) (k : Kernel) (o : Outcome) (k' : Kernel) : Prop where
  returned : ∃ v data, o = .returned v data
  mmu : k'.mmu = k.mmu ∨ ∃ dest, k'.mmu = k.mmu.step (.termVisibleSwitch dest)
  table : k'.proc = k.proc ∨ ∃ a fd f, Descriptor e k k' a fd f

theorem Quiet.terminalNum (h : Quiet e k o k') : k'.terminalNum = k.terminalNum := by
  rcases h.mmu with hm | ⟨dest, hm⟩
  · exact congrArg Mmu.terminalNum hm
  · exact congrArg Mmu.terminalNum hm

/-- A call that answers without touching anything but the console, the RTC or
`fname_length`. -/
theorem Quiet.of_eq {v : Int} {data : List UInt8} (hm : k'.mmu = k.mmu) (hp : k'.proc = k.proc) :
    Quiet e k (.returned v data) k' := ⟨⟨v, data, rfl⟩, .inl hm, .inl hp⟩

theorem putcKeyboard_frame {c : UInt8} (h : k.putcKeyboard c = some k') :
    ∃ m cur, k' = { k with mem := m, cursor := cur } := by
  obtain ⟨⟨m, cur⟩, -, rfl⟩ := Option.map_eq_some_iff.mp h
  exact ⟨_, _, rfl⟩

theorem addToBuffer_frame {c : UInt8} (h : k.addToBuffer c = some k') :
    ∃ m cur, k' = { k with
      mem := m, cursor := cur, input := (k.input.addToBuffer k.currentVisible c).1 } := by
  unfold addToBuffer at h
  dsimp only at h
  split_ifs at h
  · obtain ⟨m, cur, rfl⟩ := putcKeyboard_frame h
    exact ⟨m, cur, rfl⟩
  · obtain rfl := Option.some.inj h
    exact ⟨_, _, rfl⟩

theorem controlL_frame (h : k.controlL = some k') :
    ∃ m cur inp, k' = { k with mem := m, cursor := cur, input := inp } := by
  obtain ⟨k1, h1, rfl⟩ := Option.map_eq_some_iff.mp h
  obtain ⟨⟨m, cur⟩, -, rfl⟩ := Option.map_eq_some_iff.mp h1
  exact ⟨_, _, _, rfl⟩

theorem termVisibleSwitch_frame {dest : Fin 3} (h : k.termVisibleSwitch dest = some k') :
    ∃ m, k' = { k with
      mem := m, currentVisible := visibleAfter k.currentVisible dest }.termPageSwitch := by
  unfold termVisibleSwitch at h
  unfold visibleAfter
  split_ifs at h ⊢
  · obtain ⟨m1, -, h2⟩ := Option.bind_eq_some_iff.mp h
    obtain ⟨m2, -, rfl⟩ := Option.map_eq_some_iff.mp h2
    exact ⟨m2, rfl⟩
  · obtain rfl := Option.some.inj h
    exact ⟨_, rfl⟩

/-- Of the table, the offset of at most descriptor `fd` of slot `a` changes. -/
def Moved (k k' : Kernel) (a fd : Fin 8) : Prop :=
  k'.proc = k.proc ∨ ∃ g : FileT → Nat, k'.proc = k.proc.onFd a fd fun f => { f with fOffset := g f }

theorem Moved.quiet {a fd : Fin 8} (hm : k'.mmu = k.mmu) (ho : ∃ v data, o = .returned v data)
    (ha : k.active = some a) (ht : Target k a fd e) (h : Moved k k' a fd) : Quiet e k o k' := by
  refine ⟨ho, .inl hm, ?_⟩
  rcases h with hp | ⟨g, hp⟩
  · exact .inl hp
  · exact .inr ⟨a, fd, _, ha, ht, hp, fun _ => .inl rfl⟩

theorem ret_spec {k1 : Kernel} {v : Int} (h : k1.ret v = some (o, k')) :
    (∃ v data, o = .returned v data) ∧ k' = k1 := by
  obtain ⟨rfl, rfl⟩ := Prod.mk.inj (Option.some.inj h)
  exact ⟨⟨v, [], rfl⟩, rfl⟩

theorem puts_spec {s : List UInt8} {v : Int} (h : (k.puts s).bind (fun k => k.ret v) = some (o, k')) :
    (∃ v data, o = .returned v data) ∧ ∃ m cur, k' = { k with mem := m, cursor := cur } := by
  obtain ⟨k1, h1, h2⟩ := Option.bind_eq_some_iff.mp h
  obtain ⟨m, cur, rfl⟩ := puts_frame h1
  obtain ⟨ho, rfl⟩ := ret_spec h2
  exact ⟨ho, m, cur, rfl⟩

theorem regularFileRead_spec {a fd : Fin 8} {buf count : Nat}
    (h : regularFileRead fs k a fd buf count = some (o, k')) :
    (∃ v data, o = .returned v data) ∧ k'.mmu = k.mmu ∧ k'.rtcFlag = k.rtcFlag ∧ Moved k k' a fd := by
  unfold regularFileRead at h
  split_ifs at h
  · obtain ⟨ho, m, cur, rfl⟩ := puts_spec h
    exact ⟨ho, rfl, rfl, .inl rfl⟩
  · dsimp only at h
    generalize readData fs _ _ buf count = r at h
    obtain ⟨rfl, rfl⟩ := Prod.mk.inj (Option.some.inj h)
    exact ⟨⟨_, _, rfl⟩, rfl, rfl, .inr ⟨fun f => ((f.fOffset + r.1) % 2 ^ 32).toNat, rfl⟩⟩

theorem directoryFileRead_spec {a fd : Fin 8} {buf length : Nat}
    (h : directoryFileRead fs k a fd buf length = some (o, k')) :
    (∃ v data, o = .returned v data) ∧ k'.mmu = k.mmu ∧ k'.rtcFlag = k.rtcFlag ∧ Moved k k' a fd := by
  unfold directoryFileRead at h
  dsimp only at h
  split_ifs at h
  · obtain ⟨ho, rfl⟩ := ret_spec h
    exact ⟨ho, rfl, rfl, .inl rfl⟩
  · obtain ⟨ho, rfl⟩ := ret_spec h
    exact ⟨ho, rfl, rfl, .inl rfl⟩
  · obtain ⟨ho, rfl⟩ := ret_spec h
    exact ⟨ho, rfl, rfl, .inl rfl⟩
  · obtain ⟨rfl, rfl⟩ := Prod.mk.inj (Option.some.inj h)
    exact ⟨⟨_, _, rfl⟩, rfl, rfl, .inr ⟨fun f => w32 (f.fOffset + 1), rfl⟩⟩

theorem fdIndex_val {fd : Int} (h : ¬ (fd < 0 ∨ fd > 7)) : ((fdIndex fd).val : Int) = fd := by
  simp only [fdIndex, Fin.ofNat]; omega

/-- `read` answers; of the process table it moves at most the offset of the descriptor, and
the RTC flags it leaves to `RTC_read`. -/
theorem read_spec {fd : Int} {buf : Nat} {nbytes : Int} (h : read fs fd buf nbytes k = some (o, k')) :
    (∃ v data, o = .returned v data) ∧ k'.mmu = k.mmu ∧
      (k.CallsRtcRead (.read fd buf nbytes) ∨ k'.rtcFlag = k.rtcFlag) ∧
      (k'.proc = k.proc ∨ ∃ a, k.active = some a ∧ ¬ (fd < 0 ∨ fd > 7) ∧ Moved k k' a (fdIndex fd)) := by
  unfold read at h
  split at h
  · obtain ⟨ho, rfl⟩ := ret_spec h
    exact ⟨ho, rfl, .inr rfl, .inl rfl⟩
  rename_i hfd
  obtain ⟨a, ha, h⟩ := Option.bind_eq_some_iff.mp h
  split at h
  · obtain ⟨ho, rfl⟩ := ret_spec h
    exact ⟨ho, rfl, .inr rfl, .inl rfl⟩
  rename_i hopen
  split at h
  · obtain ⟨ho, rfl⟩ := ret_spec h
    exact ⟨ho, rfl, .inr rfl, .inl rfl⟩
  rename_i hout
  unfold readFunc at h
  cases hop : ((k.proc.pcb a).fileDescriptorTable (fdIndex fd)).fOp with
  | none => rw [hop] at h; cases h
  | some op =>
    rw [hop] at h
    cases op with
    | stdin =>
      obtain ⟨r, hr, h⟩ := Option.map_eq_some_iff.mp h
      obtain ⟨q, -, rfl⟩ := Option.map_eq_some_iff.mp hr
      obtain ⟨rfl, rfl⟩ := Prod.mk.inj h
      exact ⟨⟨_, _, rfl⟩, rfl, .inr rfl, .inl rfl⟩
    | stdout => cases h
    | rtc =>
      obtain ⟨ho, rfl⟩ := ret_spec h
      exact ⟨ho, rfl, .inl ⟨hfd, hout, a, ha, not_not.mp hopen, hop⟩, .inl rfl⟩
    | file =>
      obtain ⟨ho, hm, hflag, hmoved⟩ := regularFileRead_spec h
      exact ⟨ho, hm, .inr hflag, .inr ⟨a, ha, by omega, hmoved⟩⟩
    | dir =>
      obtain ⟨ho, hm, hflag, hmoved⟩ := directoryFileRead_spec h
      exact ⟨ho, hm, .inr hflag, .inr ⟨a, ha, by omega, hmoved⟩⟩

theorem read_quiet {fd : Int} {buf : Nat} {nbytes : Int} (h : read fs fd buf nbytes k = some (o, k')) :
    Quiet (.read fd buf nbytes) k o k' := by
  obtain ⟨ho, hm, -, hp | ⟨a, ha, hfd, hmoved⟩⟩ := read_spec h
  · exact ⟨ho, .inl hm, .inl hp⟩
  · exact hmoved.quiet hm ho ha (fdIndex_val hfd)

theorem terminalWrite_frame {buf : Option Memory} {nbytes v : Int}
    (h : k.terminalWrite buf nbytes = some (v, k')) : ∃ m cur, k' = { k with mem := m, cursor := cur } := by
  unfold terminalWrite at h
  split_ifs at h
  · obtain ⟨-, rfl⟩ := Prod.mk.inj (Option.some.inj h)
    exact ⟨_, _, rfl⟩
  · cases buf with
    | none =>
      obtain ⟨-, rfl⟩ := Prod.mk.inj (Option.some.inj h)
      exact ⟨_, _, rfl⟩
    | some s =>
      obtain ⟨k1, h1, h⟩ := Option.map_eq_some_iff.mp h
      obtain ⟨-, rfl⟩ := Prod.mk.inj h
      exact puts_frame h1

theorem rtcWrite_frame (k : Kernel) (buf : Option Memory) (nbytes : Int) :
    ∃ r, (k.rtcWrite buf nbytes).2 = { k with rtcRate := r } := by
  unfold rtcWrite
  cases buf with
  | none => exact ⟨_, rfl⟩
  | some s => dsimp only; split_ifs <;> exact ⟨_, rfl⟩

theorem write_frame {fd : Int} {buf : Option Memory} {nbytes : Int}
    (h : write fd buf nbytes k = some (o, k')) :
    (∃ v data, o = .returned v data) ∧
      ∃ m cur r, k' = { k with mem := m, cursor := cur, rtcRate := r } := by
  unfold write at h
  split at h
  · obtain ⟨ho, rfl⟩ := ret_spec h
    exact ⟨ho, _, _, _, rfl⟩
  obtain ⟨a, -, h⟩ := Option.bind_eq_some_iff.mp h
  split at h
  · obtain ⟨ho, rfl⟩ := ret_spec h
    exact ⟨ho, _, _, _, rfl⟩
  split at h
  · obtain ⟨ho, rfl⟩ := ret_spec h
    exact ⟨ho, _, _, _, rfl⟩
  unfold writeFunc at h
  cases hop : ((k.proc.pcb a).fileDescriptorTable (fdIndex fd)).fOp with
  | none => rw [hop] at h; cases h
  | some op =>
    rw [hop] at h
    cases op with
    | stdin => cases h
    | stdout =>
      obtain ⟨⟨v, k1⟩, hw, h⟩ := Option.bind_eq_some_iff.mp h
      obtain ⟨ho, rfl⟩ := ret_spec h
      obtain ⟨m, cur, rfl⟩ := terminalWrite_frame hw
      exact ⟨ho, m, cur, _, rfl⟩
    | rtc =>
      obtain ⟨ho, rfl⟩ := ret_spec h
      obtain ⟨r, hr⟩ := rtcWrite_frame k buf nbytes
      exact ⟨ho, _, _, r, hr⟩
    | file =>
      obtain ⟨ho, m, cur, rfl⟩ := puts_spec h
      exact ⟨ho, m, cur, _, rfl⟩
    | dir =>
      obtain ⟨ho, m, cur, rfl⟩ := puts_spec h
      exact ⟨ho, m, cur, _, rfl⟩

/-- An entry that `open` can write. -/
structure NewEntry (fs : Fs) (f : FileT) : Prop where
  active : f.active = 1
  offset : f.fOffset = 0
  table : f.fOp = some .rtc ∨ f.fOp = some .dir ∧ f.inode = 0 ∨ f.fOp = some .file ∧
    ∃ i, i < 63 ∧ (fs.dentry i).fileType = 2 ∧ f.inode = (fs.dentry i).inode

theorem readDentryByName_found {name : Option (List UInt8)} {d : Dentry} {n : Nat}
    (h : (readDentryByName fs name d n).ret ≥ 0) :
    ∃ i, i < 63 ∧ (readDentryByName fs name d n).dentry.fileType = (fs.dentry i).fileType ∧
      (readDentryByName fs name d n).dentry.inode = (fs.dentry i).inode := by
  unfold readDentryByName at h ⊢
  cases name with
  | none => simp at h
  | some s =>
    dsimp only at h ⊢
    split_ifs at h ⊢ with hlen
    · simp at h
    · split at h
      · simp at h
      · rename_i i hi
        exact ⟨i, List.mem_range.mp (List.mem_of_find?_eq_some hi), rfl, rfl⟩

/-- `open` refuses, or writes a new entry into a descriptor that was inactive and returns
it. -/
theorem openFile_cases {filename : Option (List UInt8)} {past : Bool}
    (h : openFile fs filename past k = some (o, k')) :
    k'.mmu = k.mmu ∧ k'.rtcFlag = k.rtcFlag ∧ ((o = .returned (-1) [] ∧ k'.proc = k.proc) ∨
      ∃ a fd f, k.active = some a ∧ ((k.proc.pcb a).fileDescriptorTable fd).active = 0 ∧
        NewEntry fs f ∧ o = .returned fd.val [] ∧ k'.proc = k.proc.onFd a fd fun _ => f) := by
  obtain ⟨a, ha, h⟩ := Option.bind_eq_some_iff.mp h
  cases hf : firstInactive (k.proc.pcb a).fileDescriptorTable with
  | none =>
    simp only [hf] at h
    split_ifs at h
    obtain ⟨rfl, rfl⟩ := Prod.mk.inj (Option.some.inj h)
    exact ⟨rfl, rfl, .inl ⟨rfl, rfl⟩⟩
  | some fd =>
    have hfree : ((k.proc.pcb a).fileDescriptorTable fd).active = 0 := by
      simpa [firstInactive] using List.find?_some hf
    simp only [hf] at h
    split_ifs at h with hl
    · obtain ⟨i, hi, htype, hinode⟩ := readDentryByName_found hl
      split at h
      · obtain ⟨rfl, rfl⟩ := Prod.mk.inj (Option.some.inj h)
        exact ⟨rfl, rfl, .inr ⟨a, fd, _, ha, hfree, ⟨rfl, rfl, .inl rfl⟩, rfl, rfl⟩⟩
      · obtain ⟨rfl, rfl⟩ := Prod.mk.inj (Option.some.inj h)
        exact ⟨rfl, rfl, .inr ⟨a, fd, _, ha, hfree, ⟨rfl, rfl, .inr (.inl ⟨rfl, rfl⟩)⟩, rfl, rfl⟩⟩
      · rename_i h2
        obtain ⟨rfl, rfl⟩ := Prod.mk.inj (Option.some.inj h)
        exact ⟨rfl, rfl, .inr ⟨a, fd, _, ha, hfree,
          ⟨rfl, rfl, .inr (.inr ⟨rfl, i, hi, htype.symm.trans h2, hinode⟩)⟩, rfl, rfl⟩⟩
      · obtain ⟨rfl, rfl⟩ := Prod.mk.inj (Option.some.inj h)
        exact ⟨rfl, rfl, .inl ⟨rfl, rfl⟩⟩
    · obtain ⟨rfl, rfl⟩ := Prod.mk.inj (Option.some.inj h)
      exact ⟨rfl, rfl, .inl ⟨rfl, rfl⟩⟩

theorem openFile_quiet {filename : Option (List UInt8)} {past : Bool}
    (h : openFile fs filename past k = some (o, k')) : Quiet (.openFile filename past) k o k' := by
  obtain ⟨hm, -, ⟨rfl, hp⟩ | ⟨a, fd, f, ha, hfree, hnew, rfl, hp⟩⟩ := openFile_cases h
  · exact .of_eq hm hp
  · refine ⟨⟨_, _, rfl⟩, .inl hm, .inr ⟨a, fd, _, ha, hfree, hp, fun _ => ?_⟩⟩
    exact .inr (.inl ⟨hnew.active, rfl⟩)

theorem close_cases {fd : Int} (h : close fd k = some (o, k')) :
    (∃ v data, o = .returned v data) ∧ k'.mmu = k.mmu ∧ k'.rtcFlag = k.rtcFlag ∧ (k'.proc = k.proc ∨
      ∃ a, k.active = some a ∧ ¬ (fd < 0 ∨ fd > 7) ∧ 2 ≤ (fdIndex fd).val ∧
        k'.proc = k.proc.onFd a (fdIndex fd) fun f => { f with active := 0 }) := by
  unfold close at h
  split_ifs at h with h1 h2
  · obtain ⟨ho, rfl⟩ := ret_spec h
    exact ⟨ho, rfl, rfl, .inl rfl⟩
  · obtain ⟨ho, rfl⟩ := ret_spec h
    exact ⟨ho, rfl, rfl, .inl rfl⟩
  · obtain ⟨a, ha, h⟩ := Option.bind_eq_some_iff.mp h
    split_ifs at h
    · obtain ⟨ho, rfl⟩ := ret_spec h
      exact ⟨ho, rfl, rfl, .inl rfl⟩
    · obtain ⟨ho, rfl⟩ := ret_spec h
      have hval := fdIndex_val h1
      exact ⟨ho, rfl, rfl, .inr ⟨a, ha, h1, by omega, rfl⟩⟩

theorem close_quiet {fd : Int} (h : close fd k = some (o, k')) : Quiet (.close fd) k o k' := by
  obtain ⟨ho, hm, -, hp | ⟨a, ha, hfd, h2, hp⟩⟩ := close_cases h
  · exact ⟨ho, .inl hm, .inl hp⟩
  · exact ⟨ho, .inl hm, .inr ⟨a, _, _, ha, fdIndex_val hfd, hp, fun _ => .inr (.inr ⟨rfl, h2⟩)⟩⟩

theorem getargs_frame {buf : Nat} {nbytes : Int} (h : getargs buf nbytes k = some (o, k')) :
    (∃ v data, o = .returned v data) ∧ k' = k := by
  unfold getargs at h
  split_ifs at h
  · exact ret_spec h
  · obtain ⟨a, -, h⟩ := Option.bind_eq_some_iff.mp h
    obtain ⟨rfl, rfl⟩ := Prod.mk.inj (Option.some.inj h)
    exact ⟨⟨_, _, rfl⟩, rfl⟩

theorem vidmap_frame {screenStart : Nat} (h : vidmap screenStart k = some (o, k')) :
    (∃ v data, o = .returned v data) ∧ k' = k := by
  unfold vidmap at h
  split_ifs at h
  · exact ret_spec h
  · obtain ⟨rfl, rfl⟩ := Prod.mk.inj (Option.some.inj h)
    exact ⟨⟨_, _, rfl⟩, rfl⟩

/-- The terminal a tick moves on to. -/
def next (k : Kernel) : Fin 3 := ⟨((k.terminalNum + 1) % 3).toNat, by omega⟩

theorem next_val (k : Kernel) : (k.next.val : Int) = (k.terminalNum + 1) % 3 := by
  simp only [next]; omega

/-- What a step can do to the process table and the paging structures. -/
inductive Effect (k : Kernel) : Event → Outcome → Kernel → Prop where
  | quiet {e : Event} {o : Outcome} {k' : Kernel} (hh : ∀ status env, e ≠ .halt status env)
      (hq : Quiet e k o k') : Effect k e o k'
  | child {k' : Kernel} {a i : Fin 8} {command : Option (List UInt8)} {env : ExecEnv}
      {arg : List UInt8} {entry : Nat} (ha : k.active = some a) (hi : k.proc.freePid = some i)
      (hp : k'.proc = k.proc.launch k.terminalNum i arg env.esp env.ebp)
      (hm : k'.mmu = k.mmu.step (.userPageInit i)) (ht : k'.terminalNum = k.terminalNum) :
      Effect k (.execute command env) (.entered entry) k'
  | release {k' : Kernel} {a p : Fin 8} {status : UInt8} {env : ExecEnv} (ha : k.active = some a)
      (hpar : (k.proc.pcb a).parentPcb = some p)
      (hp : k'.proc = (k.proc.closeAll a status).release k.terminalNum a p)
      (hm : k'.mmu = k.mmu.step (.userPageInit ((k.proc.closeAll a status).pcb p).pid))
      (ht : k'.terminalNum = k.terminalNum) :
      Effect k (.halt status env) (.resumed (k.proc.pcb a).esp (k.proc.pcb a).ebp status.toNat) k'
  | restart {k' : Kernel} {a i : Fin 8} {status : UInt8} {env : ExecEnv} {entry : Nat}
      (ha : k.active = some a) (hpar : (k.proc.pcb a).parentPcb = none)
      (hi : (k.haltedRoot a status).freePid = some i)
      (hp : k'.proc = (k.haltedRoot a status).launch k.terminalNum i [] env.esp env.ebp)
      (hm : k'.mmu = k.mmu.step (.userPageInit i)) (ht : k'.terminalNum = k.terminalNum) :
      Effect k (.halt status env) (.entered entry) k'
  | first {k' : Kernel} {i : Fin 8} {esp ebp : Nat} {env : ExecEnv} {entry : Nat}
      (ha : (k.ticked esp ebp).active = none) (hi : (k.readied esp ebp).proc.freePid = some i)
      (hp : k'.proc = (k.readied esp ebp).proc.launch ((k.terminalNum + 1) % 3) i [] env.esp env.ebp)
      (hm : k'.mmu = (k.mmu.step (.schedule k.next)).step (.userPageInit i))
      (ht : k'.terminalNum = (k.terminalNum + 1) % 3) :
      Effect k (.tick esp ebp env) (.entered entry) k'
  | switch {k' : Kernel} {a : Fin 8} {esp ebp : Nat} {env : ExecEnv}
      (ha : (k.ticked esp ebp).active = some a)
      (hp : k'.proc = (k.ticked esp ebp).proc.switchTo ((k.terminalNum + 1) % 3) a esp ebp)
      (hm : k'.mmu = (k.mmu.step (.userPageInit (k.proc.pcb a).pid)).step (.schedule k.next))
      (ht : k'.terminalNum = (k.terminalNum + 1) % 3) :
      Effect k (.tick esp ebp env) (.switched k'.proc.esp k'.proc.ebp) k'

theorem Quiet.not_tick (h : Quiet e k o k') (hs : k.step fs e = some (o, k')) (esp ebp : Nat)
    (env : ExecEnv) : e ≠ .tick esp ebp env := by
  intro he
  subst he
  obtain ⟨v, data, rfl⟩ := h.returned
  rcases scheduler_cases hs with ⟨-, i, entry, n, a, bytes, -, ho, -⟩ | ⟨a, -, ho, -⟩
  · cases ho
  · cases ho

theorem active_launched {s : Proc} {t : Int} {i : Fin 8} {arg : List UInt8} {esp ebp : Nat}
    (hp : k'.proc = s.launch t i arg esp ebp) (ht : k'.terminalNum = t) : k'.active = some i := by
  rw [active, ht, hp]
  exact Proc.launch_active

theorem haltedRoot_freePid {a : Fin 8} {status : UInt8} : (k.haltedRoot a status).freePid = some 0 := by
  apply Proc.freePid_zero
  simp [haltedRoot, Proc.releaseRoot]

theorem call_eq_some {f : Kernel → Option (Outcome × Kernel)} (h : k.call f = some (o, k')) :
    (∃ a, k.active = some a) ∧ f k = some (o, k') := by
  unfold call at h
  split_ifs at h with ha
  exact ⟨Option.isSome_iff_exists.mp ha, h⟩

theorem step_cases (h : k.step fs e = some (o, k')) : Effect k e o k' := by
  cases e with
  | tick esp ebp env =>
    rcases scheduler_cases h with ⟨ha, i, entry, n, a, bytes, hi, rfl, -, rfl⟩ | ⟨a, ha, rfl, hk⟩
    · refine .first ha hi rfl ?_ rfl
      simp only [Mmu.step, next_val]
      rfl
    · refine .switch ha (by rw [hk]; rfl) ?_ (by rw [hk]; rfl)
      simp only [Mmu.step, next_val, hk]
      rfl
  | key c =>
    obtain ⟨k1, h1, h2⟩ := Option.map_eq_some_iff.mp h
    obtain ⟨rfl, rfl⟩ := Prod.mk.inj h2
    obtain ⟨m, cur, rfl⟩ := addToBuffer_frame h1
    exact .quiet (by simp) (.of_eq rfl rfl)
  | controlL =>
    rw [step] at h
    obtain ⟨k1, h1, h2⟩ := Option.map_eq_some_iff.mp h
    obtain ⟨rfl, rfl⟩ := Prod.mk.inj h2
    obtain ⟨m, cur, inp, rfl⟩ := controlL_frame h1
    exact .quiet (by simp) (.of_eq rfl rfl)
  | altF dest =>
    obtain ⟨k1, h1, h2⟩ := Option.map_eq_some_iff.mp h
    obtain ⟨rfl, rfl⟩ := Prod.mk.inj h2
    obtain ⟨m, rfl⟩ := termVisibleSwitch_frame h1
    exact .quiet (by simp) ⟨⟨_, _, rfl⟩, .inr ⟨dest, rfl⟩, .inl rfl⟩
  | rtc =>
    obtain ⟨rfl, rfl⟩ := Prod.mk.inj (Option.some.inj h)
    exact .quiet (by simp) (.of_eq rfl rfl)
  | execute command env =>
    obtain ⟨⟨a, ha⟩, h⟩ := call_eq_some h
    rcases execute_cases h with ⟨m, cur, n, rfl, rfl⟩ |
      ⟨i, name, arg, entry, n, b, bytes, -, hi, rfl, -, rfl⟩
    · exact .quiet (by simp) (.of_eq rfl rfl)
    · exact .child ha hi rfl rfl rfl
  | halt status env =>
    obtain ⟨-, h⟩ := call_eq_some h
    obtain ⟨a, ha, ⟨p, hpar, rfl, rfl⟩ | ⟨hpar, i, entry, cur, m, n, hi, rfl, rfl⟩⟩ := halt_cases h
    · exact .release ha hpar rfl rfl rfl
    · exact .restart ha hpar hi rfl rfl rfl
  | read fd buf nbytes => exact .quiet (by simp) (read_quiet (call_eq_some h).2)
  | write fd buf nbytes =>
    obtain ⟨⟨v, data, rfl⟩, m, cur, r, rfl⟩ := write_frame (call_eq_some h).2
    exact .quiet (by simp) (.of_eq rfl rfl)
  | openFile filename past => exact .quiet (by simp) (openFile_quiet (call_eq_some h).2)
  | close fd => exact .quiet (by simp) (close_quiet (call_eq_some h).2)
  | getargs buf nbytes =>
    obtain ⟨⟨v, data, rfl⟩, rfl⟩ := getargs_frame (call_eq_some h).2
    exact .quiet (by simp) (.of_eq rfl rfl)
  | vidmap screenStart =>
    obtain ⟨⟨v, data, rfl⟩, rfl⟩ := vidmap_frame (call_eq_some h).2
    exact .quiet (by simp) (.of_eq rfl rfl)
  | store v b =>
    rw [step] at h
    obtain ⟨k1, h1, h2⟩ := Option.map_eq_some_iff.mp (call_eq_some h).2
    obtain ⟨rfl, rfl⟩ := Prod.mk.inj h2
    obtain ⟨x, -, rfl⟩ := Option.map_eq_some_iff.mp h1
    exact .quiet (by simp) (.of_eq rfl rfl)

/-! ## The paging structures of a run -/

/-- The tables are those of the family, the indices are in range, and from the first tick
on some process is mapped. -/
structure Mapped (k : Kernel) (layout : Layout) (last : Option Nat) : Prop where
  ok : k.mmu.Ok layout last
  some : 0 ≤ k.terminalNum → last.isSome

theorem mapped_boot (p : Paging) (mem : Memory) : (boot p mem).Mapped p.layout none where
  ok := Mmu.boot_ok p
  some := by simp [boot]

theorem mapped_step {layout : Layout} {last : Option Nat} (h : k.Mapped layout last)
    (hs : k.step fs e = some (o, k')) : ∃ last', k'.Mapped layout last' := by
  cases step_cases hs with
  | quiet hh hq =>
    -- no operation, or a visible switch
    have hsome := h.some
    rw [← hq.terminalNum] at hsome
    rcases hq.mmu with hm | ⟨dest, hm⟩
    · exact ⟨last, by rw [hm]; exact h.ok, hsome⟩
    · exact ⟨last, by rw [hm]; exact Mmu.step_ok (.termVisibleSwitch dest) h.ok, hsome⟩
  | child ha hi hp hm ht => exact ⟨_, by rw [hm]; exact Mmu.step_ok _ h.ok, fun _ => rfl⟩
  | release ha hpar hp hm ht => exact ⟨_, by rw [hm]; exact Mmu.step_ok _ h.ok, fun _ => rfl⟩
  | restart ha hpar hi hp hm ht => exact ⟨_, by rw [hm]; exact Mmu.step_ok _ h.ok, fun _ => rfl⟩
  | first ha hi hp hm ht =>
    exact ⟨_, by rw [hm]; exact Mmu.step_ok _ (Mmu.step_ok _ h.ok), fun _ => rfl⟩
  | switch ha hp hm ht =>
    exact ⟨_, by rw [hm]; exact Mmu.step_ok _ (Mmu.step_ok _ h.ok), fun _ => rfl⟩

theorem mapped_run {p : Paging} {mem : Memory} {es : List Event}
    (hr : Machine.run (step fs) (boot p mem) es = some k) : ∃ last, k.Mapped p.layout last :=
  Machine.run_induction (I := fun k => ∃ last, k.Mapped p.layout last)
    (fun ⟨_, h⟩ hs => mapped_step h hs) ⟨_, mapped_boot p mem⟩ hr

end Kernel

end Flipit

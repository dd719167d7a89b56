import Flipit.ProcessTable
import Mathlib.Logic.Relation

/- `halt` one statement at a time.

   System calls come in through a trap gate, so interrupts stay on and a tick can
   preempt `halt` between any two of its statements, up to its `cli`. A `System` is
   the kernel with, for each terminal, where its process is: in user code, or in a
   `halt` at some statement. The scheduled terminal's `halt` goes on by one statement
   at a time; `execute`, the scheduler and the other calls are events of the kernel as
   before, and an interrupt can come whatever the terminal is at.

   Every statement reads `terminal[terminal_num].active_process` anew. A tick that
   comes back to a terminal finds it where it was preempted, except where its `halt`
   has set the active process to `NULL`: then the tick launches a shell, and the
   `halt` is never resumed.

   `halt` taken as one event is this `halt` with nothing in between (`halt_alone`), so
   every run of the kernel is a run of the system (`system_run`). -/
namespace Flipit
open Machine

/-- The statements of `halt`. -/
inductive Pc where
  /-- `ret_val = status` -/
  | store
  /-- the test of the closing loop, `close(fd)` and `fd++` -/
  | test (fd : Nat)
  | close (fd : Nat)
  | bump (fd : Nat)
  /-- `if (parent_pcb != NULL)` -/
  | parent
  /-- `user_page_init` of the parent -/
  | remap
  /-- the two stores to the TSS -/
  | esp0
  | ss0
  /-- `pid_array[pid] = 0` -/
  | free
  /-- the loop over the parent's argument string -/
  | clear (i : Nat)
  /-- `is_shell = 1`, `pid_array[0] = 0` -/
  | root
  | freeZero
  /-- `if (is_shell == 1)` -/
  | again (isShell : Bool)
  /-- `active_process = NULL`, `printf`, `execute("shell")` -/
  | forget
  | print
  | restart
  /-- `cli` and the rest: the jump into the `execute` of the parent -/
  | leave
  deriving DecidableEq

/-- Where a statement leads: to the next one, or out of the kernel. -/
inductive Goes where
  | on (pc : Pc)
  | out (o : Outcome)

/-- Store to `terminal[t].active_process`. -/
def Proc.setActive (s : Proc) (t : Int) (a : Option (Fin 8)) : Proc :=
  { s with term := Function.update s.term t { s.term t with activeProcess := a } }

@[simp] theorem setActive_active (s : Proc) (t : Int) (a : Option (Fin 8)) :
    (s.setActive t a).active t = a := by
  simp [Proc.setActive, Proc.active]

theorem setActive_active_ne {t u : Int} (h : u ≠ t) (s : Proc) (a : Option (Fin 8)) :
    (s.setActive t a).active u = s.active u := by
  simp [Proc.setActive, Proc.active, Function.update_of_ne h]

namespace Kernel

/-- The running process and its parent. -/
def activeParent (k : Kernel) : Option (Fin 8 × Fin 8) :=
  k.active.bind fun a => (k.proc.pcb a).parentPcb.map fun p => (a, p)

/-- One statement of `halt(status)`; a dereference of `NULL` faults. -/
def statement (fs : Fs) (env : ExecEnv) (status : UInt8) (k : Kernel) : Pc → Option (Goes × Kernel)
  | .store => some (.on (.test 2), { k with proc := { k.proc with retVal := status.toNat } })
  | .test fd => k.active.map fun a =>
    -- behind the table lies `parent_pcb`, which is never 1
    (.on (if fd < 8 ∧ ((k.proc.pcb a).fileDescriptorTable (Fin.ofNat 8 fd)).active = 1 then .close fd
      else .parent), k)
  | .close fd => (k.close fd).map fun r => (.on (.bump fd), r.2)
  | .bump fd => some (.on (.test (fd + 1)), k)
  | .parent => k.active.map fun a =>
    (.on (if (k.proc.pcb a).parentPcb.isSome then .remap else .root), k)
  | .remap => k.activeParent.map fun (_, p) =>
    (.on .esp0, { k with paging := k.paging.userPageInit (k.proc.pcb p).pid.val })
  | .esp0 => k.activeParent.map fun (_, p) =>
    (.on .ss0, { k with proc := { k.proc with tss := { k.proc.tss with esp0 := (k.proc.pcb p).esp0 } } })
  | .ss0 => k.activeParent.map fun (_, p) =>
    (.on .free, { k with proc := { k.proc with tss := { k.proc.tss with ss0 := (k.proc.pcb p).ss0 } } })
  | .free => k.active.map fun a =>
    (.on (.clear 0), { k with proc := { k.proc with
      pidArray := Function.update k.proc.pidArray (k.proc.pcb a).pid 0 } })
  | .clear i =>
    if i < 128 then k.activeParent.map fun (_, p) =>
      (.on (.clear (i + 1)), { k with proc := { k.proc with
        pcb := Function.update k.proc.pcb p { k.proc.pcb p with
          arg := Function.update (k.proc.pcb p).arg i 0 } } })
    else some (.on (.again false), k)
  | .root => some (.on .freeZero, k)
  | .freeZero => some (.on (.again true), { k with proc := { k.proc with
      pidArray := Function.update k.proc.pidArray 0 0 } })
  | .again isShell => some (.on (if isShell then .forget else .leave), k)
  | .forget => some (.on .print, { k with proc := k.proc.setActive k.terminalNum none })
  | .print => (k.puts (ascii "restarting the shell\n")).map fun k => (.on .restart, k)
  | .restart => (launchShell fs env k).map fun r => (.out r.1, r.2)
  | .leave => k.active.map fun a =>
    (.out (.resumed (k.proc.pcb a).esp (k.proc.pcb a).ebp k.proc.retVal),
      { k with proc := k.proc.setActive k.terminalNum (k.proc.pcb a).parentPcb })

end Kernel

/-- Where the process of a terminal is: in user code, or in the `halt(status)` that slot
`slot` called. -/
inductive Control where
  | user
  | halting (slot : Fin 8) (status : UInt8) (pc : Pc)
  deriving DecidableEq

structure System where
  kernel : Kernel
  control : Int → Control

/-- What happens next: an event of the kernel, a call of `halt`, or the next statement of
the `halt` that is scheduled. -/
inductive Turn where
  | run (e : Event)
  | halt (status : UInt8)
  | next (env : ExecEnv)

def Turn.ticks (n : Nat) : List Turn := List.replicate n (.run (.tick 0 0 zeroEnv))

def Turn.nexts (n : Nat) : List Turn := List.replicate n (.next zeroEnv)

/-- The running process starts a shell. -/
def Turn.shell (esp ebp : Nat) : Turn :=
  .run (.execute (some (ascii "shell")) ⟨esp, ebp, fun _ => 0, fun _ => 0⟩)

/-- The events that are no calls. -/
def Event.isInterrupt : Event → Bool
  | .tick _ _ _ | .key _ | .controlL | .altF _ | .rtc => true
  | _ => false

namespace System

def boot (p : Paging) (mem : Bytes.Memory) : System := ⟨.boot p mem, fun _ => .user⟩

/-- The terminal that was entered is in user code. -/
def landed (control : Int → Control) (o : Outcome) (k : Kernel) : Int → Control :=
  match o with
  | .entered _ => Function.update control k.terminalNum .user
  | _ => control

def step (fs : Fs) (s : System) : Turn → Option (Option Outcome × System)
  | .run e =>
    if e.isHalt = false ∧ (e.isInterrupt = true ∨ s.control s.kernel.terminalNum = .user) then
      (s.kernel.step fs e).map fun r => (some r.1, ⟨r.2, landed s.control r.1 r.2⟩)
    else none
  | .halt status =>
    if s.control s.kernel.terminalNum = .user then
      s.kernel.active.map fun a => (none, { s with
        control := Function.update s.control s.kernel.terminalNum (.halting a status .store) })
    else none
  | .next env =>
    match s.control s.kernel.terminalNum with
    | .user => none
    | .halting slot status pc => (s.kernel.statement fs env status pc).map fun
      | (.on pc, k) => (none, ⟨k, Function.update s.control s.kernel.terminalNum (.halting slot status pc)⟩)
      | (.out o, k) => (some o, ⟨k, Function.update s.control s.kernel.terminalNum .user⟩)

end System

/-! ## Nothing in between -/

section
variable {fs : Fs} {env : ExecEnv} {status : UInt8} {k k' : Kernel} {a p : Fin 8} {o : Outcome}

/-- A statement leads to the next. -/
def Flow (fs : Fs) (env : ExecEnv) (status : UInt8) (x y : Pc × Kernel) : Prop :=
  x.2.statement fs env status x.1 = some (.on y.1, y.2)

/-- Other descriptors in slot `a`. -/
def Kernel.withFds (k : Kernel) (a : Fin 8) (fds : Fin 8 → FileT) : Kernel :=
  { k with proc := { k.proc with
      pcb := Function.update k.proc.pcb a { k.proc.pcb a with fileDescriptorTable := fds } } }

/-- Another argument string in slot `p`. -/
def Kernel.withArg (k : Kernel) (p : Fin 8) (arg : Bytes.Memory) : Kernel :=
  { k with proc := { k.proc with pcb := Function.update k.proc.pcb p { k.proc.pcb p with arg := arg } } }

theorem activeParent_eq : k.activeParent = some (a, p) ↔
    k.active = some a ∧ (k.proc.pcb a).parentPcb = some p := by
  simp only [Kernel.activeParent, Option.bind_eq_some_iff, Option.map_eq_some_iff, Prod.mk.injEq]
  constructor
  · intro hex
    obtain ⟨b, hb, q, hq, rfl, rfl⟩ := hex
    exact ⟨hb, hq⟩
  · intro hap
    exact ⟨a, hap.1, p, hap.2, rfl, rfl⟩

theorem withArg_pcb (k : Kernel) (p : Fin 8) (arg : Bytes.Memory) (q : Fin 8) :
    ∃ arg', (k.withArg p arg).proc.pcb q = { k.proc.pcb q with arg := arg' } := by
  rcases eq_or_ne q p with rfl | hq
  · exact ⟨arg, Function.update_self ..⟩
  · exact ⟨_, Function.update_of_ne hq ..⟩

theorem withArg_withArg (arg arg' : Bytes.Memory) : (k.withArg p arg).withArg p arg' = k.withArg p arg' := by
  simp [Kernel.withArg]

theorem flow_closing (ha : k.active = some a) (left fd : Nat) (hfd : fd + left = 8) (h2 : 2 ≤ fd) :
    Relation.ReflTransGen (Flow fs env status) (.test fd, k)
      (.parent, k.withFds a (Proc.closeLoop (k.proc.pcb a).fileDescriptorTable left fd)) := by
  induction left generalizing k fd with
  | zero =>
    apply Relation.ReflTransGen.single
    simp [Flow, Kernel.statement, ha, Proc.closeLoop, Kernel.withFds, show ¬ fd < 8 by omega]
  | succ left ih =>
    rw [Proc.closeLoop]
    split
    · rename_i hopen
      generalize hfds : Function.update (k.proc.pcb a).fileDescriptorTable (Fin.ofNat 8 fd)
        { (k.proc.pcb a).fileDescriptorTable (Fin.ofNat 8 fd) with active := 0 } = fds
      have htest : Flow fs env status (.test fd, k) (.close fd, k) := by
        rw [Flow, Kernel.statement, ha, Option.map_some, if_pos ⟨by omega, hopen⟩]
      have hclose : Flow fs env status (.close fd, k) (.bump fd, k.withFds a fds) := by
        have hindex : Kernel.fdIndex fd = Fin.ofNat 8 fd := by simp [Kernel.fdIndex]
        rw [Flow, Kernel.statement, Kernel.close, if_neg (by omega), if_neg (by omega), ha,
          Option.bind_some, hindex, if_neg (by rw [hopen]; decide), ← hfds]
        rfl
      have hbump : Flow fs env status (.bump fd, k.withFds a fds) (.test (fd + 1), k.withFds a fds) := rfl
      refine .head htest (.head hclose (.head hbump ?_))
      have hrest := ih (k := k.withFds a fds) ha (fd + 1) (by omega) (by omega)
      simpa [Kernel.withFds] using hrest
    · rename_i hclosed
      apply Relation.ReflTransGen.single
      rw [Flow, Kernel.statement, ha, Option.map_some, if_neg fun h => hclosed h.2]
      simp [Kernel.withFds]

theorem flow_clearing (h : k.activeParent = some (a, p)) (left i : Nat) (hi : i + left = 128) :
    Relation.ReflTransGen (Flow fs env status) (.clear i, k)
      (.again false, k.withArg p fun j => if i ≤ j ∧ j < 128 then 0 else (k.proc.pcb p).arg j) := by
  induction left generalizing k i with
  | zero =>
    have hsame : (fun j => if i ≤ j ∧ j < 128 then 0 else (k.proc.pcb p).arg j) = (k.proc.pcb p).arg := by
      funext j
      exact if_neg (by omega)
    apply Relation.ReflTransGen.single
    simp [Flow, Kernel.statement, hsame, Kernel.withArg, show ¬ i < 128 by omega]
  | succ left ih =>
    obtain ⟨ha, hp⟩ := activeParent_eq.mp h
    have hclear : Flow fs env status (.clear i, k)
        (.clear (i + 1), k.withArg p (Function.update (k.proc.pcb p).arg i 0)) := by
      simp [Flow, Kernel.statement, h, Kernel.withArg, show i < 128 by omega]
    refine .head hclear ?_
    have hparent : ((k.withArg p (Function.update (k.proc.pcb p).arg i 0)).proc.pcb a).parentPcb = some p := by
      obtain ⟨arg, hblock⟩ := withArg_pcb k p (Function.update (k.proc.pcb p).arg i 0) a
      rw [hblock, hp]
    have hrest := ih (k := k.withArg p _) (activeParent_eq.mpr ⟨ha, hparent⟩) (i + 1) (by omega)
    have harg : (fun j => if i + 1 ≤ j ∧ j < 128 then 0 else
          ((k.withArg p (Function.update (k.proc.pcb p).arg i 0)).proc.pcb p).arg j) =
        fun j => if i ≤ j ∧ j < 128 then 0 else (k.proc.pcb p).arg j := by
      funext j
      simp only [Kernel.withArg, Function.update_self]
      rcases eq_or_ne j i with rfl | hj
      · rw [Function.update_self, if_neg (by omega), if_pos (by omega)]
      · rw [Function.update_of_ne hj]
        congr 1
        simp only [eq_iff_iff]
        omega
    rw [harg, withArg_withArg] at hrest
    exact hrest

theorem flow_child (h : k.activeParent = some (a, p)) :
    ∃ k1, Relation.ReflTransGen (Flow fs env status) (.parent, k) (.leave, k1) ∧
      k1.statement fs env status .leave = some (.out (.resumed (k.proc.pcb a).esp (k.proc.pcb a).ebp k.proc.retVal),
        { k with
          paging := k.paging.userPageInit (k.proc.pcb p).pid.val
          proc := k.proc.release k.terminalNum a p }) := by
  obtain ⟨ha, hp⟩ := activeParent_eq.mp h
  -- the states in front of the clearing loop
  let k1 : Kernel := { k with paging := k.paging.userPageInit (k.proc.pcb p).pid.val }
  let k2 : Kernel := { k1 with proc := { k.proc with tss := { k.proc.tss with esp0 := (k.proc.pcb p).esp0 } } }
  let k3 : Kernel := { k1 with proc := { k.proc with tss := ⟨(k.proc.pcb p).esp0, (k.proc.pcb p).ss0⟩ } }
  let k4 : Kernel := { k3 with proc := { k3.proc with
    pidArray := Function.update k.proc.pidArray (k.proc.pcb a).pid 0 } }
  have htest : Flow fs env status (.parent, k) (.remap, k) := by
    rw [Flow, Kernel.statement, ha, Option.map_some, hp]
    rfl
  have hremap : Flow fs env status (.remap, k) (.esp0, k1) := by
    rw [Flow, Kernel.statement, h]
    rfl
  have hesp0 : Flow fs env status (.esp0, k1) (.ss0, k2) := by
    rw [Flow, Kernel.statement, show k1.activeParent = some (a, p) from h]
    rfl
  have hss0 : Flow fs env status (.ss0, k2) (.free, k3) := by
    rw [Flow, Kernel.statement, show k2.activeParent = some (a, p) from h]
    rfl
  have hfree : Flow fs env status (.free, k3) (.clear 0, k4) := by
    rw [Flow, Kernel.statement, show k3.active = some a from ha]
    rfl
  have hloop : Relation.ReflTransGen (Flow fs env status) (.clear 0, k4)
      (.again false, k4.withArg p (Proc.clearArg (k.proc.pcb p).arg)) := by
    have harg : (fun j => if 0 ≤ j ∧ j < 128 then 0 else (k4.proc.pcb p).arg j) =
        Proc.clearArg (k.proc.pcb p).arg := by
      funext j
      simp [Proc.clearArg, k4, k3]
    rw [← harg]
    exact flow_clearing (k := k4) h 128 0 rfl
  refine ⟨k4.withArg p (Proc.clearArg (k.proc.pcb p).arg),
    .head htest (.head hremap (.head hesp0 (.head hss0 (.head hfree (hloop.tail rfl))))), ?_⟩
  obtain ⟨arg, hblock⟩ := withArg_pcb k4 p (Proc.clearArg (k.proc.pcb p).arg) a
  have hactive : (k4.withArg p (Proc.clearArg (k.proc.pcb p).arg)).active = some a := ha
  rw [Kernel.statement, hactive, Option.map_some, hblock, show (k4.proc.pcb a).parentPcb = some p from hp]
  rfl

theorem flow_root (ha : k.active = some a) (hp : (k.proc.pcb a).parentPcb = none) {k1 : Kernel}
    (hputs : { k with proc := k.proc.releaseRoot k.terminalNum }.puts (ascii "restarting the shell\n") = some k1) :
    Relation.ReflTransGen (Flow fs env status) (.parent, k) (.restart, k1) := by
  let k2 : Kernel := { k with proc := { k.proc with pidArray := Function.update k.proc.pidArray 0 0 } }
  let k3 : Kernel := { k with proc := k.proc.releaseRoot k.terminalNum }
  have htest : Flow fs env status (.parent, k) (.root, k) := by
    rw [Flow, Kernel.statement, ha, Option.map_some, hp]
    rfl
  have hroot : Flow fs env status (.root, k) (.freeZero, k) := rfl
  have hzero : Flow fs env status (.freeZero, k) (.again true, k2) := rfl
  have hagain : Flow fs env status (.again true, k2) (.forget, k2) := rfl
  have hforget : Flow fs env status (.forget, k2) (.print, k3) := rfl
  have hprint : Flow fs env status (.print, k3) (.restart, k1) := by
    rw [Flow, Kernel.statement, hputs]
    rfl
  exact .head htest (.head hroot (.head hzero (.head hagain (.head hforget (.single hprint)))))

theorem halt_flow (h : k.halt fs env status = some (o, k')) :
    ∃ pc k1, Relation.ReflTransGen (Flow fs env status) (.store, k) (pc, k1) ∧
      k1.statement fs env status pc = some (.out o, k') := by
  obtain ⟨a, ha, h⟩ := Option.bind_eq_some_iff.mp h
  let k0 : Kernel := { k with proc := k.proc.closeAll a status }
  have hclosed : Relation.ReflTransGen (Flow fs env status) (.store, k) (.parent, k0) := by
    have hstore : Flow fs env status (.store, k)
      (.test 2, { k with proc := { k.proc with retVal := status.toNat } }) := rfl
    exact .head hstore (flow_closing (k := { k with proc := { k.proc with retVal := status.toNat } }) ha 6 2
      rfl (le_refl 2))
  dsimp only at h
  cases hp : (k0.proc.pcb a).parentPcb with
  | some p =>
    rw [hp] at h
    obtain ⟨rfl, rfl⟩ := Prod.mk.inj (Option.some.inj h)
    obtain ⟨k1, hflow, hleave⟩ := flow_child (k := k0) (activeParent_eq.mpr ⟨ha, hp⟩)
    exact ⟨_, k1, hclosed.trans hflow, hleave⟩
  | none =>
    rw [hp] at h
    obtain ⟨k1, hputs, hlaunch⟩ := Option.bind_eq_some_iff.mp h
    refine ⟨_, k1, hclosed.trans (flow_root (k := k0) ha hp hputs), ?_⟩
    rw [Kernel.statement, hlaunch]
    rfl

end

/-! ## The system -/

section
variable {fs : Fs} {env : ExecEnv} {status : UInt8} {k k' : Kernel} {o : Outcome}

theorem withArg_calm (k : Kernel) (p : Fin 8) (arg : Bytes.Memory) : Calm k.proc (k.withArg p arg).proc := by
  refine ⟨fun q => ?_, fun _ => rfl, rfl⟩
  obtain ⟨arg', hblock⟩ := withArg_pcb k p arg q
  exact ⟨_, arg', hblock⟩

/-- The pid of the halting process is free, and `halt` is not over. -/
def Pc.freed : Pc → Bool
  | .clear _ | .again _ | .forget | .print | .restart | .leave => true
  | _ => false

/-- The terminal has no active process. -/
def Pc.forgotten : Pc → Bool
  | .print | .restart => true
  | _ => false

/-- The statement is on the path of a halting process with this parent. -/
def Pc.Fits (parent : Option (Fin 8)) : Pc → Prop
  | .remap | .esp0 | .ss0 | .free | .clear _ | .again false | .leave => parent ≠ none
  | .root | .freeZero | .again true | .forget | .print | .restart => parent = none
  | _ => True

/-- What a statement does. -/
inductive Took (env : ExecEnv) (status : UInt8) (k : Kernel) : Pc → Goes → Kernel → Prop where
  | store : Took env status k .store (.on (.test 2))
      { k with proc := { k.proc with retVal := status.toNat } }
  | calm {pc pc' : Pc} {k' : Kernel} (hc : Calm k.proc k'.proc) (hret : k'.proc.retVal = k.proc.retVal)
      (ht : k'.terminalNum = k.terminalNum)
      (hfreed : pc'.freed = pc.freed) (hforgotten : pc'.forgotten = pc.forgotten)
      (hstore : pc ≠ .store ∧ pc' ≠ .store)
      (hfits : ∀ parent, (∀ a, k.active = some a → (k.proc.pcb a).parentPcb = parent) →
        pc.Fits parent → pc'.Fits parent) :
      Took env status k pc (.on pc') k'
  | free {a : Fin 8} (ha : k.active = some a) : Took env status k .free (.on (.clear 0))
      { k with proc := { k.proc with
          pidArray := Function.update k.proc.pidArray (k.proc.pcb a).pid 0 } }
  | freeZero : Took env status k .freeZero (.on (.again true))
      { k with proc := { k.proc with pidArray := Function.update k.proc.pidArray 0 0 } }
  | forget : Took env status k .forget (.on .print)
      { k with proc := k.proc.setActive k.terminalNum none }
  | restart {i : Fin 8} {entry n : Nat} {m : Bytes.Memory} (hi : k.proc.freePid = some i) :
      Took env status k .restart (.out (.entered entry)) (k.launched env i [] m n)
  | leave {a : Fin 8} (ha : k.active = some a) :
      Took env status k .leave
        (.out (.resumed (k.proc.pcb a).esp (k.proc.pcb a).ebp k.proc.retVal))
        { k with proc := k.proc.setActive k.terminalNum (k.proc.pcb a).parentPcb }

theorem statement_cases {pc : Pc} {g : Goes} (h : k.statement fs env status pc = some (g, k')) :
    Took env status k pc g k' := by
  -- the statements that read `active_process->parent_pcb`
  have hparent : ∀ {f : Fin 8 × Fin 8 → Goes × Kernel}, k.activeParent.map f = some (g, k') →
      ∃ a p, f (a, p) = (g, k') := by
    intro f hf
    obtain ⟨⟨a, p⟩, -, he⟩ := Option.map_eq_some_iff.mp hf
    exact ⟨a, p, he⟩
  cases pc with
  | store =>
    obtain ⟨rfl, rfl⟩ := Prod.mk.inj (Option.some.inj h)
    exact .store
  | test fd =>
    obtain ⟨a, -, he⟩ := Option.map_eq_some_iff.mp h
    obtain ⟨rfl, rfl⟩ := Prod.mk.inj he
    split
    · exact .calm (.refl _) rfl rfl rfl rfl ⟨nofun, nofun⟩ fun _ _ _ => trivial
    · exact .calm (.refl _) rfl rfl rfl rfl ⟨nofun, nofun⟩ fun _ _ _ => trivial
  | close fd =>
    obtain ⟨⟨o, k1⟩, hclose, he⟩ := Option.map_eq_some_iff.mp h
    obtain ⟨rfl, rfl⟩ := Prod.mk.inj he
    obtain ⟨-, hm, -, hp⟩ := Kernel.close_cases hclose
    have hcalm : Calm k.proc k1.proc ∧ k1.proc.retVal = k.proc.retVal := by
      rcases hp with hp | ⟨a, -, -, -, hp⟩
      · rw [hp]
        exact ⟨.refl _, rfl⟩
      · rw [hp]
        exact ⟨.onFd .., rfl⟩
    exact .calm hcalm.1 hcalm.2 (congrArg Mmu.terminalNum hm) rfl rfl ⟨nofun, nofun⟩ fun _ _ _ => trivial
  | bump fd =>
    obtain ⟨rfl, rfl⟩ := Prod.mk.inj (Option.some.inj h)
    exact .calm (.refl _) rfl rfl rfl rfl ⟨nofun, nofun⟩ fun _ _ _ => trivial
  | parent =>
    obtain ⟨a, ha, he⟩ := Option.map_eq_some_iff.mp h
    obtain ⟨rfl, rfl⟩ := Prod.mk.inj he
    split
    · rename_i hsome
      refine .calm (.refl _) rfl rfl rfl rfl ⟨nofun, nofun⟩ fun parent hpar _ => ?_
      rw [hpar a ha] at hsome
      exact Option.isSome_iff_ne_none.mp hsome
    · rename_i hnone
      refine .calm (.refl _) rfl rfl rfl rfl ⟨nofun, nofun⟩ fun parent hpar _ => ?_
      rw [hpar a ha] at hnone
      exact Option.not_isSome_iff_eq_none.mp hnone
  | remap =>
    obtain ⟨a, p, he⟩ := hparent h
    obtain ⟨rfl, rfl⟩ := Prod.mk.inj he
    exact .calm (.refl _) rfl rfl rfl rfl ⟨nofun, nofun⟩ fun _ _ hf => hf
  | esp0 =>
    obtain ⟨a, p, he⟩ := hparent h
    obtain ⟨rfl, rfl⟩ := Prod.mk.inj he
    exact .calm ⟨fun _ => ⟨_, _, rfl⟩, fun _ => rfl, rfl⟩ rfl rfl rfl rfl ⟨nofun, nofun⟩ fun _ _ hf => hf
  | ss0 =>
    obtain ⟨a, p, he⟩ := hparent h
    obtain ⟨rfl, rfl⟩ := Prod.mk.inj he
    exact .calm ⟨fun _ => ⟨_, _, rfl⟩, fun _ => rfl, rfl⟩ rfl rfl rfl rfl ⟨nofun, nofun⟩ fun _ _ hf => hf
  | free =>
    obtain ⟨a, ha, he⟩ := Option.map_eq_some_iff.mp h
    obtain ⟨rfl, rfl⟩ := Prod.mk.inj he
    exact .free ha
  | clear i =>
    rw [Kernel.statement] at h
    split at h
    · obtain ⟨a, p, he⟩ := hparent h
      obtain ⟨rfl, rfl⟩ := Prod.mk.inj he
      exact .calm (withArg_calm k p _) rfl rfl rfl rfl ⟨nofun, nofun⟩ fun _ _ hf => hf
    · obtain ⟨rfl, rfl⟩ := Prod.mk.inj (Option.some.inj h)
      exact .calm (.refl _) rfl rfl rfl rfl ⟨nofun, nofun⟩ fun _ _ hf => hf
  | root =>
    obtain ⟨rfl, rfl⟩ := Prod.mk.inj (Option.some.inj h)
    exact .calm (.refl _) rfl rfl rfl rfl ⟨nofun, nofun⟩ fun _ _ hf => hf
  | freeZero =>
    obtain ⟨rfl, rfl⟩ := Prod.mk.inj (Option.some.inj h)
    exact .freeZero
  | again isShell =>
    obtain ⟨rfl, rfl⟩ := Prod.mk.inj (Option.some.inj h)
    cases isShell with
    | true => exact .calm (.refl _) rfl rfl rfl rfl ⟨nofun, nofun⟩ fun _ _ hf => hf
    | false => exact .calm (.refl _) rfl rfl rfl rfl ⟨nofun, nofun⟩ fun _ _ hf => hf
  | forget =>
    obtain ⟨rfl, rfl⟩ := Prod.mk.inj (Option.some.inj h)
    exact .forget
  | print =>
    obtain ⟨k1, hputs, he⟩ := Option.map_eq_some_iff.mp h
    obtain ⟨m, cur, rfl⟩ := Kernel.puts_frame hputs
    obtain ⟨rfl, rfl⟩ := Prod.mk.inj he
    exact .calm (.refl _) rfl rfl rfl rfl ⟨nofun, nofun⟩ fun _ _ hf => hf
  | restart =>
    obtain ⟨⟨o, k1⟩, hlaunch, he⟩ := Option.map_eq_some_iff.mp h
    obtain ⟨i, entry, n, a, bytes, hi, rfl, -, rfl⟩ := Kernel.launchShell_cases hlaunch
    obtain ⟨rfl, rfl⟩ := Prod.mk.inj he
    exact .restart hi
  | leave =>
    obtain ⟨a, ha, he⟩ := Option.map_eq_some_iff.mp h
    obtain ⟨rfl, rfl⟩ := Prod.mk.inj he
    exact .leave ha

theorem statement_terminalNum {pc : Pc} {g : Goes} (h : k.statement fs env status pc = some (g, k')) :
    k'.terminalNum = k.terminalNum := by
  cases statement_cases h with
  | calm hc hret ht => exact ht
  | _ => rfl

theorem flow_terminalNum {x y : Pc × Kernel} (h : Relation.ReflTransGen (Flow fs env status) x y) :
    y.2.terminalNum = x.2.terminalNum := by
  induction h with
  | refl => rfl
  | tail _ hlast ih => exact (statement_terminalNum hlast).trans ih

theorem flow_run (control : Int → Control) (slot : Fin 8) {x y : Pc × Kernel}
    (h : Relation.ReflTransGen (Flow fs env status) x y) :
    ∃ n, run (System.step fs)
        ⟨x.2, Function.update control x.2.terminalNum (.halting slot status x.1)⟩
        (List.replicate n (.next env)) =
      some ⟨y.2, Function.update control y.2.terminalNum (.halting slot status y.1)⟩ := by
  induction h using Relation.ReflTransGen.head_induction_on with
  | refl => exact ⟨0, rfl⟩
  | head hfirst hrest ih =>
    obtain ⟨n, hn⟩ := ih
    refine ⟨n + 1, run_cons.mpr ⟨(none, _), ?_, hn⟩⟩
    rw [Flow] at hfirst
    rw [statement_terminalNum hfirst]
    simp [System.step, hfirst]

/-- Taken as one event, `halt` is the turns of its call and of its statements. -/
theorem halt_alone (control : Int → Control) (hu : control k.terminalNum = .user)
    (h : k.halt fs env status = some (o, k')) :
    ∃ n s, run (System.step fs) ⟨k, control⟩ (.halt status :: List.replicate n (.next env)) = some s ∧
      s.step fs (.next env) = some (some o, ⟨k', control⟩) := by
  obtain ⟨a, ha, -⟩ := Option.bind_eq_some_iff.mp h
  obtain ⟨pc, k1, hflow, hout⟩ := halt_flow h
  obtain ⟨n, hn⟩ := flow_run control a hflow
  have hcall : System.step fs ⟨k, control⟩ (.halt status) = some (none,
      ⟨k, Function.update control k.terminalNum (.halting a status .store)⟩) := by
    simp [System.step, hu, ha]
  refine ⟨n, _, run_cons.mpr ⟨_, hcall, hn⟩, ?_⟩
  have hlast : k1.terminalNum = k.terminalNum := flow_terminalNum hflow
  have hback : Function.update control k.terminalNum .user = control := by
    rw [← hu]
    exact Function.update_eq_self ..
  simp [System.step, hout, hlast, hback]

/-- What a turn can be. -/
inductive Turned (fs : Fs) (x : System) : Turn → Option Outcome → System → Prop where
  | event {e : Event} {o : Outcome} {k' : Kernel} (he : e.isHalt = false)
      (hu : e.isInterrupt = true ∨ x.control x.kernel.terminalNum = .user)
      (hk : x.kernel.step fs e = some (o, k')) :
      Turned fs x (.run e) (some o) ⟨k', System.landed x.control o k'⟩
  | call {a : Fin 8} {status : UInt8} (hu : x.control x.kernel.terminalNum = .user)
      (ha : x.kernel.active = some a) :
      Turned fs x (.halt status) none ⟨x.kernel, Function.update x.control x.kernel.terminalNum
        (.halting a status .store)⟩
  | on {slot : Fin 8} {status : UInt8} {pc pc' : Pc} {env : ExecEnv} {k' : Kernel}
      (hpc : x.control x.kernel.terminalNum = .halting slot status pc)
      (hk : x.kernel.statement fs env status pc = some (.on pc', k')) :
      Turned fs x (.next env) none ⟨k', Function.update x.control x.kernel.terminalNum
        (.halting slot status pc')⟩
  | out {slot : Fin 8} {status : UInt8} {pc : Pc} {env : ExecEnv} {o : Outcome} {k' : Kernel}
      (hpc : x.control x.kernel.terminalNum = .halting slot status pc)
      (hk : x.kernel.statement fs env status pc = some (.out o, k')) :
      Turned fs x (.next env) (some o) ⟨k', Function.update x.control x.kernel.terminalNum .user⟩

theorem System.step_cases {x y : System} {turn : Turn} {out : Option Outcome}
    (h : x.step fs turn = some (out, y)) : Turned fs x turn out y := by
  cases turn with
  | run e =>
    rw [System.step] at h
    split at h
    · rename_i he
      obtain ⟨⟨o, k'⟩, hk, heq⟩ := Option.map_eq_some_iff.mp h
      obtain ⟨rfl, rfl⟩ := Prod.mk.inj heq
      exact .event he.1 he.2 hk
    · cases h
  | halt status =>
    rw [System.step] at h
    split at h
    · rename_i hu
      obtain ⟨a, ha, heq⟩ := Option.map_eq_some_iff.mp h
      obtain ⟨rfl, rfl⟩ := Prod.mk.inj heq
      exact .call hu ha
    · cases h
  | next env =>
    rw [System.step] at h
    cases hc : x.control x.kernel.terminalNum with
    | user =>
      rw [hc] at h
      cases h
    | halting slot status pc =>
      rw [hc] at h
      obtain ⟨⟨g, k'⟩, hk, heq⟩ := Option.map_eq_some_iff.mp h
      cases g with
      | on pc' =>
        obtain ⟨rfl, rfl⟩ := Prod.mk.inj heq
        exact .on hc hk
      | out o' =>
        obtain ⟨rfl, rfl⟩ := Prod.mk.inj heq
        exact .out hc hk

/-- Every event of the kernel is some turns of the system, with everybody in user code
before and after. -/
theorem event_turns {e : Event} (h : k.step fs e = some (o, k')) :
    ∃ turns, run (System.step fs) ⟨k, fun _ => .user⟩ turns = some ⟨k', fun _ => .user⟩ := by
  have hlanded : System.landed (fun _ => .user) o k' = fun _ => .user := by
    cases o with
    | entered entry => exact Function.update_eq_self (f := fun _ : Int => Control.user) _
    | _ => rfl
  cases he : e.isHalt with
  | false =>
    refine ⟨[.run e], run_cons.mpr ⟨(some o, _), ?_, rfl⟩⟩
    simp [System.step, he, h, hlanded]
  | true =>
    cases e with
    | halt status env =>
      obtain ⟨n, s, hr, hs⟩ := halt_alone (fun _ => .user) rfl (Kernel.call_eq_some h).2
      refine ⟨(.halt status :: List.replicate n (.next env)) ++ [.next env], ?_⟩
      rw [run_append, hr, Option.bind_some]
      exact run_cons.mpr ⟨_, hs, rfl⟩
    | _ => cases he

theorem system_run {es : List Event} (h : run (Kernel.step fs) k es = some k') :
    ∃ turns, run (System.step fs) ⟨k, fun _ => .user⟩ turns = some ⟨k', fun _ => .user⟩ := by
  induction es generalizing k with
  | nil =>
    obtain rfl : k = k' := Option.some.inj h
    exact ⟨[], rfl⟩
  | cons e es ih =>
    obtain ⟨⟨o, k1⟩, hs, hr⟩ := run_cons.mp h
    obtain ⟨turns, ht⟩ := event_turns hs
    obtain ⟨rest, hrest⟩ := ih hr
    refine ⟨turns ++ rest, ?_⟩
    rw [run_append, ht, Option.bind_some, hrest]

end

end Flipit

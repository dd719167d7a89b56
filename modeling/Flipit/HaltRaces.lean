import Flipit.HaltSteps

/- What the other terminals can do to a `halt` that is preempted.

   `halt` frees its pid long before it leaves: the loop over the parent's argument
   string comes after it, and at the end the stack registers and the parent are read
   from the slot that has been free since. A process started in another terminal in
   the meantime gets the slot and overwrites them (`slot_taken`). The contents of the
   kernel stacks are not modelled: the two processes then enter the kernel on one stack,
   and what is left there of the `halt` is lost. The status waits in
   `ret_val`, which all terminals share, from the first statement to the last: another
   `halt` in the meantime replaces it (`status_replaced`).

   The run is compared with a shadow in which a `halt` does nothing to the process
   table until it leaves (`Shadow`). In the shadow the table is that of the atomic
   kernel, so its invariants hold there. As long as a process is started only while a
   lower pid is free than each one that the `halt` of another terminal has freed, and no
   root shell other than pid 0 halts, the slot it gets is free in the shadow too; then
   it is not the slot of a process that is halting, and `halt` leaves with what was
   stored when its process was started (`halt_keeps_slot`). If moreover no `halt` stores
   a status while another one waits to return a different one, each `execute` returns
   the status of the child it started (`execute_returns_status`). -/
namespace Flipit
open Machine

/-- What is stored in a process's slot when it is started. -/
structure Birth where
  slot : Fin 8
  esp : Nat
  ebp : Nat
  parent : Option (Fin 8)
  deriving DecidableEq

def Proc.birth (s : Proc) (i : Fin 8) : Birth :=
  ⟨i, (s.pcb i).esp, (s.pcb i).ebp, (s.pcb i).parentPcb⟩

/-- For each terminal the births of its live processes, the latest first. -/
abbrev Births := Int → List Birth

def Births.live (b : Births) : Live := fun t => (b t).map Birth.slot

/-- A process that was entered goes on top of its terminal, a root shell in place of what
was there; a return takes the halting process off. -/
def register (s : System) (_ : Turn) (o : Option Outcome) (s' : System) (b : Births) : Births :=
  match o, s'.kernel.active with
  | some (.entered _), some i =>
    let t := s'.kernel.terminalNum
    Function.update b t
      (s'.kernel.proc.birth i :: if (s.kernel.proc.active t).isSome then b t else [])
  | some (.resumed _ _ _), _ =>
    Function.update b s.kernel.terminalNum (b s.kernel.terminalNum).tail
  | _, _ => b

/-- The system with the record. -/
def stepBirths (fs : Fs) : System × Births → Turn → Option (Option Outcome × (System × Births)) :=
  ghost (System.step fs) register

/-- The slot that a `halt` has freed and not left. -/
def Control.freed : Control → Option (Fin 8)
  | .user => none
  | .halting slot _ pc => if pc.freed then some slot else none

def Control.forgotten : Control → Bool
  | .user => false
  | .halting _ _ pc => pc.forgotten

/-- Below each pid that the `halt` of a terminal other than `t` has freed, another one is
free. -/
def System.Spare (x : System) (t : Int) : Prop :=
  ∀ u : Fin 3, (u.val : Int) ≠ t → ∀ q, (x.control u.val).freed = some q →
    ∃ p < q, x.kernel.proc.pidArray p ≠ 1

/-- A process is started, by `execute` or by a tick, only while there is a free pid below each
that the `halt` of another terminal has freed; no root shell other than pid 0 halts. -/
def Undisturbed (q : System × Births) : Turn → Prop
  | .run (.execute _ _) => q.1.Spare q.1.kernel.terminalNum
  | .run (.tick esp ebp _) => (q.1.kernel.ticked esp ebp).active = none →
      q.1.Spare ((q.1.kernel.terminalNum + 1) % 3)
  | .halt _ => ∀ a, q.2.live q.1.kernel.terminalNum = [a] → a = 0
  | _ => True

/-! ## The shadow -/

/-- Table `s` is what `s'` would be if no `halt` in progress had freed its pid or given up its
terminal. -/
structure Shadow (control : Int → Control) (s s' : Proc) : Prop where
  parent : ∀ a, (s'.pcb a).parentPcb = (s.pcb a).parentPcb
  pid : ∀ a, (s'.pcb a).pid = (s.pcb a).pid
  active : ∀ t, (control t).forgotten = false → s'.active t = s.active t
  forgotten : ∀ t, (control t).forgotten = true → s'.active t = none
  held : ∀ q, (∀ t, (control t).freed ≠ some q) → s'.pidArray q = s.pidArray q
  loose : ∀ t q, (control t).freed = some q → s'.pidArray q = 0

/-- The shadow's table is in order, a `halt` in progress is of the top process of its
terminal and on the path of its parent, and the slots hold what they were given. -/
structure Orderly (q : System × Births) : Prop where
  frame : Frame q.1.kernel q.2.live
  shadow : ∃ s, Shadow q.1.control s q.1.kernel.proc ∧ Stacks s q.2.live ∧ Holders s q.2.live
  halting : ∀ t slot status pc, q.1.control t = .halting slot status pc →
    (∃ l, q.2.live t = slot :: l) ∧ (q.2.live t = [slot] → slot = 0) ∧
    pc.Fits (q.1.kernel.proc.pcb slot).parentPcb
  births : ∀ t, ∀ c ∈ q.2 t, c = q.1.kernel.proc.birth c.slot

variable {fs : Fs} {k k' : Kernel} {control control' : Int → Control} {b : Births} {s s' r : Proc}
  {t : Int} {slot i a p : Fin 8} {status : UInt8} {pc pc' : Pc}

theorem Shadow.calm (h : Shadow control s r) (hc : Calm r s')
    (hfreed : ∀ u, (control' u).freed = (control u).freed)
    (hforgotten : ∀ u, (control' u).forgotten = (control u).forgotten) : Shadow control' s s' where
  parent := by
    intro a
    rw [hc.agrees.parent]
    exact h.parent a
  pid := by
    intro a
    rw [hc.agrees.pid]
    exact h.pid a
  active := by
    intro u hu
    rw [hforgotten] at hu
    rw [hc.active]
    exact h.active u hu
  forgotten := by
    intro u hu
    rw [hforgotten] at hu
    rw [hc.active]
    exact h.forgotten u hu
  held := by
    intro q hq
    rw [hc.pidArray]
    apply h.held
    intro u
    rw [← hfreed]
    exact hq u
  loose := by
    intro u q hq
    rw [hfreed] at hq
    rw [hc.pidArray]
    exact h.loose u q hq

/-- A terminal whose control is neither freed nor forgotten before and after. -/
theorem freed_update {c : Control} {u : Int} (h : (control t).freed = c.freed) :
    (Function.update control t c u).freed = (control u).freed := by
  rcases eq_or_ne u t with rfl | hne
  · rw [Function.update_self, h]
  · rw [Function.update_of_ne hne]

theorem forgotten_update {c : Control} {u : Int} (h : (control t).forgotten = c.forgotten) :
    (Function.update control t c u).forgotten = (control u).forgotten := by
  rcases eq_or_ne u t with rfl | hne
  · rw [Function.update_self, h]
  · rw [Function.update_of_ne hne]

theorem Shadow.frees (h : Shadow control s r) (hpc : control t = .halting slot status pc)
    (hfreed : pc.freed = false) (hfreed' : pc'.freed = true) (hforgotten : pc'.forgotten = pc.forgotten) :
    Shadow (Function.update control t (.halting slot status pc')) s
      { r with pidArray := Function.update r.pidArray slot 0 } := by
  have hnew : (Function.update control t (.halting slot status pc') t).freed = some slot := by
    rw [Function.update_self, Control.freed, if_pos hfreed']
  have hold : (control t).freed = none := by
    rw [hpc, Control.freed, hfreed]
    rfl
  have hkeep : ∀ u, (Function.update control t (.halting slot status pc') u).forgotten =
      (control u).forgotten := by
    intro u
    apply forgotten_update
    rw [hpc, Control.forgotten, Control.forgotten, hforgotten]
  refine ⟨h.parent, h.pid, fun u hu => h.active u (by rwa [hkeep] at hu),
    fun u hu => h.forgotten u (by rwa [hkeep] at hu), fun q hq => ?_, fun u q hq => ?_⟩
  · have hne : q ≠ slot := fun he => hq t (by rw [he]; exact hnew)
    dsimp only
    rw [Function.update_of_ne hne]
    refine h.held q fun u hu => ?_
    rcases eq_or_ne u t with rfl | hneu
    · rw [hold] at hu
      cases hu
    · apply hq u
      rw [Function.update_of_ne hneu]
      exact hu
  · dsimp only
    rcases eq_or_ne q slot with rfl | hne
    · exact Function.update_self ..
    · rw [Function.update_of_ne hne]
      rcases eq_or_ne u t with rfl | hneu
      · rw [hnew] at hq
        exact absurd (Option.some.inj hq).symm hne
      · rw [Function.update_of_ne hneu] at hq
        exact h.loose u q hq

theorem Shadow.forgets (h : Shadow control s r) (hpc : control t = .halting slot status .forget) :
    Shadow (Function.update control t (.halting slot status .print)) s (r.setActive t none) := by
  have hfreed : ∀ u, (Function.update control t (.halting slot status .print) u).freed =
      (control u).freed := by
    intro u
    apply freed_update
    rw [hpc]
    rfl
  refine ⟨h.parent, h.pid, fun u hu => ?_, fun u hu => ?_, fun q hq => ?_, fun u q hq => ?_⟩
  · rcases eq_or_ne u t with rfl | hne
    · rw [Function.update_self] at hu
      cases hu
    · rw [Function.update_of_ne hne] at hu
      rw [setActive_active_ne hne]
      exact h.active u hu
  · rcases eq_or_ne u t with rfl | hne
    · exact setActive_active ..
    · rw [Function.update_of_ne hne] at hu
      rw [setActive_active_ne hne]
      exact h.forgotten u hu
  · exact h.held q fun u hu => hq u (by rw [hfreed]; exact hu)
  · exact h.loose u q (by rwa [hfreed] at hq)

/-- What is freed when terminal `t` is back in user code was freed in another one. -/
theorem freed_elsewhere {u : Int} {q : Fin 8} (hq : (Function.update control t .user u).freed = some q) :
    u ≠ t ∧ (control u).freed = some q := by
  rcases eq_or_ne u t with rfl | hne
  · rw [Function.update_self] at hq
    cases hq
  · rw [Function.update_of_ne hne] at hq
    exact ⟨hne, hq⟩

/-- Terminal `t` goes back to user code: the pids other than the one it had freed. -/
theorem Shadow.held_else {q q' : Fin 8} (h : Shadow control s r) (hold : (control t).freed = some q')
    (hne : q ≠ q') (hq : ∀ u, (Function.update control t .user u).freed ≠ some q) :
    r.pidArray q = s.pidArray q := by
  refine h.held q fun u hu => ?_
  rcases eq_or_ne u t with rfl | hneu
  · rw [hold] at hu
    exact hne (Option.some.inj hu).symm
  · apply hq u
    rw [Function.update_of_ne hneu]
    exact hu

theorem Shadow.leaves (h : Shadow control s r) (hpc : control t = .halting slot status .leave)
    (hpid : (s.pcb slot).pid = slot) :
    Shadow (Function.update control t .user) ((s.closeAll slot status).release t slot p)
      (r.setActive t (some p)) := by
  have hold : (control t).freed = some slot := by
    rw [hpc]
    rfl
  have hforgotten : ∀ u, (Function.update control t .user u).forgotten = (control u).forgotten := by
    intro u
    apply forgotten_update
    rw [hpc]
    rfl
  have harray : ((s.closeAll slot status).release t slot p).pidArray = Function.update s.pidArray slot 0 := by
    simp only [Proc.release, Proc.closeAll_pid, hpid]
    rfl
  refine ⟨fun a => ?_, fun a => ?_, fun u hu => ?_, fun u hu => ?_, fun q hq => ?_, fun u q hq => ?_⟩
  · rw [Proc.release_parent, Proc.closeAll_parent]
    exact h.parent a
  · rw [Proc.release_pid, Proc.closeAll_pid]
    exact h.pid a
  · rcases eq_or_ne u t with rfl | hne
    · rw [setActive_active, Proc.release_active]
    · rw [hforgotten] at hu
      rw [setActive_active_ne hne, Proc.release_active_ne hne]
      exact h.active u hu
  · rcases eq_or_ne u t with rfl | hne
    · rw [Function.update_self] at hu
      cases hu
    · rw [hforgotten] at hu
      rw [setActive_active_ne hne]
      exact h.forgotten u hu
  · rw [harray]
    rcases eq_or_ne q slot with rfl | hne
    · rw [Function.update_self]
      exact h.loose t q hold
    · rw [Function.update_of_ne hne]
      exact h.held_else hold hne hq
  · exact h.loose u q (freed_elsewhere hq).2

theorem newPcb_shadow {arg : List UInt8} {esp ebp : Nat} (hactive : r.active t = s.active t)
    (hparent : (r.pcb i).parentPcb = (s.pcb i).parentPcb) :
    (r.newPcb t i arg esp ebp).parentPcb = (s.newPcb t i arg esp ebp).parentPcb := by
  simp only [Proc.newPcb, hactive, hparent]

/-- The first free pid is the first in the shadow too, if no `halt` has freed it. -/
theorem Shadow.freePid (h : Shadow control s r) (hfreed : ∀ u, (control u).freed ≠ some i)
    (hi : r.freePid = some i) : s.freePid = some i := by
  obtain ⟨hfree, htaken⟩ := Proc.freePid_eq_some.mp hi
  rw [Proc.freePid_eq_some, ← h.held i hfreed]
  refine ⟨hfree, fun q hq => ?_⟩
  rw [← h.held q]
  · exact htaken q hq
  · intro u hu
    have hone := htaken q hq
    rw [h.loose u q hu] at hone
    cases hone

/-- A process is started in a slot that no `halt` has freed: the same happens in the
shadow. -/
theorem Shadow.launch (h : Shadow control s r) (hfreed : ∀ u, (control u).freed ≠ some i)
    (huser : control t = .user) (arg : List UInt8) (esp ebp : Nat) :
    Shadow control (s.launch t i arg esp ebp) (r.launch t i arg esp ebp) := by
  have hkept : (control t).forgotten = false := by rw [huser]; rfl
  refine ⟨fun a => ?_, fun a => ?_, fun u hu => ?_, fun u hu => ?_, fun q hq => ?_, fun u q hq => ?_⟩
  · rcases eq_or_ne a i with rfl | hne
    · rw [Proc.launch_pcb, Proc.launch_pcb]
      exact newPcb_shadow (h.active t hkept) (h.parent a)
    · rw [Proc.launch_pcb_ne hne, Proc.launch_pcb_ne hne]
      exact h.parent a
  · rcases eq_or_ne a i with rfl | hne
    · rw [Proc.launch_pcb, Proc.launch_pcb]
      rfl
    · rw [Proc.launch_pcb_ne hne, Proc.launch_pcb_ne hne]
      exact h.pid a
  · rcases eq_or_ne u t with rfl | hne
    · rw [Proc.launch_active, Proc.launch_active]
    · rw [Proc.launch_active_ne hne, Proc.launch_active_ne hne]
      exact h.active u hu
  · rcases eq_or_ne u t with rfl | hne
    · rw [hkept] at hu
      cases hu
    · rw [Proc.launch_active_ne hne]
      exact h.forgotten u hu
  · rcases eq_or_ne q i with rfl | hne
    · simp only [Proc.launch, Function.update_self]
    · simp only [Proc.launch, Function.update_of_ne hne]
      exact h.held q hq
  · have hne : q ≠ i := fun he => hfreed u (he ▸ hq)
    simp only [Proc.launch, Function.update_of_ne hne]
    exact h.loose u q hq

/-- The shell of pid 0 is launched again where its `halt` has given up the terminal: in the
shadow the `halt` happens now, and the launch after it. -/
theorem Shadow.restart (h : Shadow control s r) (hpc : control t = .halting 0 status pc)
    (hfreed : pc.freed = true) (hforgotten : pc.forgotten = true) (arg : List UInt8) (esp ebp : Nat)
    (hother : ∀ u, u ≠ t → (control u).freed ≠ some 0) :
    Shadow (Function.update control t .user)
      (((s.closeAll 0 status).releaseRoot t).launch t 0 arg esp ebp) (r.launch t 0 arg esp ebp) := by
  have hgone : r.active t = none := by
    apply h.forgotten
    rw [hpc]
    exact hforgotten
  have hold : (control t).freed = some 0 := by
    rw [hpc, Control.freed, if_pos hfreed]
  have hparent : ∀ a, (((s.closeAll 0 status).releaseRoot t).pcb a).parentPcb = (s.pcb a).parentPcb := by
    intro a
    simp [Proc.releaseRoot]
  have hpid : ∀ a, (((s.closeAll 0 status).releaseRoot t).pcb a).pid = (s.pcb a).pid := by
    intro a
    simp [Proc.releaseRoot]
  refine ⟨fun a => ?_, fun a => ?_, fun u hu => ?_, fun u hu => ?_, fun q hq => ?_, fun u q hq => ?_⟩
  · rcases eq_or_ne a 0 with rfl | hne
    · rw [Proc.launch_pcb, Proc.launch_pcb]
      apply newPcb_shadow
      · rw [hgone, Proc.releaseRoot_active]
      · rw [hparent, h.parent]
    · rw [Proc.launch_pcb_ne hne, Proc.launch_pcb_ne hne, hparent, h.parent]
  · rcases eq_or_ne a 0 with rfl | hne
    · rw [Proc.launch_pcb, Proc.launch_pcb]
      rfl
    · rw [Proc.launch_pcb_ne hne, Proc.launch_pcb_ne hne, hpid, h.pid]
  · rcases eq_or_ne u t with rfl | hne
    · rw [Proc.launch_active, Proc.launch_active]
    · rw [Function.update_of_ne hne] at hu
      rw [Proc.launch_active_ne hne, Proc.launch_active_ne hne, Proc.releaseRoot_active_ne hne]
      exact h.active u hu
  · rcases eq_or_ne u t with rfl | hne
    · rw [Function.update_self] at hu
      cases hu
    · rw [Function.update_of_ne hne] at hu
      rw [Proc.launch_active_ne hne]
      exact h.forgotten u hu
  · rcases eq_or_ne q 0 with rfl | hne
    · simp only [Proc.launch, Function.update_self]
    · simp only [Proc.launch, Proc.releaseRoot, Function.update_of_ne hne]
      exact h.held_else hold hne hq
  · obtain ⟨hne, hq⟩ := freed_elsewhere hq
    have hq0 : q ≠ 0 := fun he => hother u hne (he ▸ hq)
    simp only [Proc.launch, Function.update_of_ne hq0]
    exact h.loose u q hq

/-! ## One turn -/

theorem birth_calm (hc : Calm s s') (i : Fin 8) : s'.birth i = s.birth i := by
  obtain ⟨fds, arg, hblock⟩ := hc.block i
  rw [Proc.birth, hblock]
  rfl

theorem Frame.moved {live : Live} (h : Frame k live)
    (hn : k'.terminalNum = k.terminalNum ∨ k'.terminalNum = (k.terminalNum + 1) % 3) : Frame k' live := by
  have hrange := h.range
  refine ⟨by omega, fun hidle => h.idle (by omega), h.outside⟩

theorem Orderly.stay (h : Orderly (⟨k, control⟩, b)) (hbirth : ∀ a, k'.proc.birth a = k.proc.birth a)
    (hn : k'.terminalNum = k.terminalNum ∨ k'.terminalNum = (k.terminalNum + 1) % 3)
    (hshadow : ∀ {s}, Shadow control s k.proc → Shadow control' s k'.proc)
    (hhalting : ∀ u slot status pc, control' u = .halting slot status pc →
      (∃ l, b.live u = slot :: l) ∧ (b.live u = [slot] → slot = 0) ∧ pc.Fits (k.proc.pcb slot).parentPcb) :
    Orderly (⟨k', control'⟩, b) := by
  obtain ⟨s, hsh, hst, hh⟩ := h.shadow
  refine ⟨h.frame.moved hn, ⟨s, hshadow hsh, hst, hh⟩, fun u slot status pc hu => ?_, fun u c hmem => ?_⟩
  · have hparent : (k'.proc.pcb slot).parentPcb = (k.proc.pcb slot).parentPcb :=
      congrArg Birth.parent (hbirth slot)
    dsimp only
    rw [hparent]
    exact hhalting u slot status pc hu
  · dsimp only
    rw [hbirth]
    exact h.births u c hmem

/-- A `halt` of a process without a parent is pid 0's, alone in its terminal. -/
theorem Orderly.root (h : Orderly (⟨k, control⟩, b)) (hpc : control t = .halting slot status pc)
    (hp : (k.proc.pcb slot).parentPcb = none) : slot = 0 ∧ b.live t = [0] := by
  obtain ⟨s, hsh, hst, -⟩ := h.shadow
  obtain ⟨⟨l, hl⟩, hzero, -⟩ := h.halting t slot status pc hpc
  dsimp only at hl hzero
  cases l with
  | nil =>
    obtain rfl := hzero hl
    exact ⟨rfl, hl⟩
  | cons p l =>
    have hparent := hsh.parent slot
    dsimp only at hparent
    rw [hp, hst.parent hl] at hparent
    cases hparent

theorem Orderly.child (h : Orderly (⟨k, control⟩, b)) (hpc : control t = .halting slot status pc)
    (hp : (k.proc.pcb slot).parentPcb ≠ none) :
    ∃ p l, b.live t = slot :: p :: l ∧ (k.proc.pcb slot).parentPcb = some p := by
  obtain ⟨s, hsh, hst, hh⟩ := h.shadow
  obtain ⟨⟨l, hl⟩, hzero, -⟩ := h.halting t slot status pc hpc
  dsimp only at hl hzero
  have hparent := hsh.parent slot
  dsimp only at hparent
  cases l with
  | nil =>
    obtain rfl := hzero hl
    rw [hh.orphan] at hparent
    exact absurd hparent hp
  | cons p l => exact ⟨p, l, hl, hparent.trans (hst.parent hl)⟩

theorem Orderly.active_slot (h : Orderly (⟨k, control⟩, b)) (hpc : control k.terminalNum = .halting slot status pc)
    (ha : k.active = some a) : a = slot ∧ (k.proc.pcb a).pid = slot := by
  obtain ⟨s, hsh, hst, hh⟩ := h.shadow
  obtain ⟨⟨l, hl⟩, -, -⟩ := h.halting _ slot status pc hpc
  dsimp only at hl hsh
  have hkept : (control k.terminalNum).forgotten = false := by
    by_contra hforgotten
    have hnone := hsh.forgotten _ (Bool.eq_true_of_not_eq_false hforgotten)
    rw [← Kernel.active, ha] at hnone
    cases hnone
  have hactive := hsh.active _ hkept
  rw [← Kernel.active, ha, hst.active, hl] at hactive
  obtain rfl : a = slot := Option.some.inj hactive
  exact ⟨rfl, (hsh.pid a).trans (hh.pid k.terminalNum a (by rw [hl]; simp))⟩

theorem halting_update {t u : Int} {c : Control} {slot' : Fin 8} {status' : UInt8}
    (hu : Function.update control t c u = .halting slot' status' pc') :
    (u = t ∧ c = .halting slot' status' pc') ∨ (u ≠ t ∧ control u = .halting slot' status' pc') := by
  rcases eq_or_ne u t with rfl | hne
  · rw [Function.update_self] at hu
    exact .inl ⟨rfl, hu⟩
  · rw [Function.update_of_ne hne] at hu
    exact .inr ⟨hne, hu⟩

theorem Orderly.goOn (h : Orderly (⟨k, control⟩, b)) (hpc : control k.terminalNum = .halting slot status pc)
    (hbirth : ∀ a, k'.proc.birth a = k.proc.birth a) (ht : k'.terminalNum = k.terminalNum)
    (hfits : pc'.Fits (k.proc.pcb slot).parentPcb)
    (hshadow : ∀ {s}, Shadow control s k.proc →
      Shadow (Function.update control k.terminalNum (.halting slot status pc')) s k'.proc) :
    Orderly (⟨k', Function.update control k.terminalNum (.halting slot status pc')⟩, b) := by
  refine h.stay hbirth (.inl ht) hshadow fun u slot' status' pc'' hu => ?_
  rcases halting_update hu with ⟨rfl, hc⟩ | ⟨-, hu⟩
  · obtain ⟨rfl, rfl, rfl⟩ := Control.halting.inj hc
    obtain ⟨htop, hzero, -⟩ := h.halting _ slot status pc hpc
    exact ⟨htop, hzero, hfits⟩
  · exact h.halting u slot' status' pc'' hu

theorem live_update (b : Births) (t : Int) (l : List Birth) :
    Births.live (Function.update b t l) = Function.update b.live t (l.map Birth.slot) :=
  Function.comp_update (List.map Birth.slot) b t l

theorem Frame.stack {live : Live} (h : Frame k live) (ht : 0 ≤ t ∧ t ≤ 2) (hn : k'.terminalNum = t)
    (l : List (Fin 8)) : Frame k' (Function.update live t l) := by
  refine ⟨by omega, by omega, fun u hu => ?_⟩
  have hne : u ≠ t := by omega
  rw [Function.update_of_ne hne]
  exact h.outside u hu

theorem Orderly.range (h : Orderly (⟨k, control⟩, b)) (hpc : control t = .halting slot status pc) :
    0 ≤ t ∧ t ≤ 2 := by
  obtain ⟨⟨l, hl⟩, -, -⟩ := h.halting t slot status pc hpc
  by_contra hout
  dsimp only at hl
  rw [h.frame.outside t hout] at hl
  cases hl

theorem birth_launch {arg : List UInt8} {esp ebp : Nat} (hc : Calm s r) (ha : a ≠ i) :
    (r.launch t i arg esp ebp).birth a = s.birth a := by
  obtain ⟨fds, arg', hblock⟩ := hc.block a
  rw [Proc.birth, Proc.launch_pcb_ne ha, hblock]
  rfl

theorem Orderly.leaves (h : Orderly (⟨k, control⟩, b))
    (hpc : control k.terminalNum = .halting slot status .leave) (ha : k.active = some a)
    (hp : k'.proc = k.proc.setActive k.terminalNum (k.proc.pcb a).parentPcb)
    (ht : k'.terminalNum = k.terminalNum) :
    Orderly (⟨k', Function.update control k.terminalNum .user⟩,
      Function.update b k.terminalNum (b k.terminalNum).tail) := by
  obtain ⟨rfl, -⟩ := h.active_slot hpc ha
  obtain ⟨p, l, hl, hpar⟩ := h.child hpc (h.halting _ a status .leave hpc).2.2
  obtain ⟨s, hsh, hst, hh⟩ := h.shadow
  have hlive : Births.live (Function.update b k.terminalNum (b k.terminalNum).tail) =
      Function.update b.live k.terminalNum (p :: l) := by
    rw [live_update, List.map_tail]
    congr 1
    change (b.live k.terminalNum).tail = _
    rw [hl]
    rfl
  have hpid : (s.pcb a).pid = a := hh.pid k.terminalNum a (by rw [hl]; simp)
  rw [hpar] at hp
  refine ⟨?_, ⟨(s.closeAll a status).release k.terminalNum a p, ?_, ?_, ?_⟩,
    fun u slot' status' pc' hu => ?_, fun u c hc => ?_⟩
  · dsimp only
    rw [hlive]
    exact h.frame.stack (h.range hpc) ht _
  · dsimp only
    rw [hp]
    exact hsh.leaves hpc hpid
  · dsimp only
    rw [hlive]
    exact hst.pop hl status
  · dsimp only
    rw [hlive]
    exact hh.pop hl status
  · dsimp only at hu ⊢
    rcases halting_update hu with ⟨-, hc⟩ | ⟨hne, hu⟩
    · cases hc
    · rw [hlive, Function.update_of_ne hne, hp]
      exact h.halting u slot' status' pc' hu
  · dsimp only at hc ⊢
    have hmem : c ∈ b u := by
      rcases eq_or_ne u k.terminalNum with rfl | hne
      · rw [Function.update_self] at hc
        exact List.mem_of_mem_tail hc
      · rwa [Function.update_of_ne hne] at hc
    rw [hp]
    exact h.births u c hmem

theorem Orderly.terminal (h : Orderly (⟨k, control⟩, b)) (ht : control t ≠ .user) :
    ∃ u : Fin 3, (u.val : Int) = t := by
  cases hc : control t with
  | user => exact absurd hc ht
  | halting =>
    have hrange := h.range hc
    refine ⟨⟨t.toNat, by omega⟩, ?_⟩
    dsimp only
    omega

theorem Orderly.start {arg : List UInt8} {esp ebp : Nat} (h : Orderly (⟨k, control⟩, b)) (hc : Calm k.proc r)
    (hfreed : ∀ u, (control u).freed ≠ some i) (huser : control t = .user) (ht : 0 ≤ t ∧ t ≤ 2)
    (hn : k'.terminalNum = t) (hi : r.freePid = some i) (hp : k'.proc = r.launch t i arg esp ebp) :
    Orderly (⟨k', Function.update control t .user⟩,
      Function.update b t (k'.proc.birth i :: b t)) := by
  obtain ⟨s, hsh, hst, hh⟩ := h.shadow
  have hr : Shadow control s r := hsh.calm hc (fun _ => rfl) fun _ => rfl
  have hfree : s.freePid = some i := hr.freePid hfreed hi
  have hfresh : ∀ u, i ∉ b.live u := hh.fresh hfree
  have hlive : Births.live (Function.update b t (k'.proc.birth i :: b t)) =
      Function.update b.live t (i :: b.live t) := live_update ..
  refine ⟨?_, ⟨s.launch t i arg esp ebp, ?_, ?_, ?_⟩, fun u slot' status' pc' hu => ?_, fun u c hmem => ?_⟩
  · dsimp only
    rw [hlive]
    exact h.frame.stack ht hn _
  · dsimp only
    have hsame : Function.update control t .user = control := by
      rw [← huser]
      exact Function.update_eq_self ..
    rw [hp, hsame]
    exact hr.launch hfreed huser arg esp ebp
  · dsimp only
    rw [hlive]
    exact hst.push hfresh arg esp ebp
  · dsimp only
    rw [hlive]
    exact hh.push hst hfree arg esp ebp
  · dsimp only at hu ⊢
    rcases halting_update hu with ⟨-, hcontrol⟩ | ⟨hne, hu⟩
    · cases hcontrol
    · obtain ⟨⟨l, hl⟩, hzero, hfits⟩ := h.halting u slot' status' pc' hu
      dsimp only at hl hzero hfits
      have hslot : slot' ≠ i := fun he => hfresh u (by rw [hl, he]; simp)
      rw [hlive, Function.update_of_ne hne, hp, Proc.launch_pcb_ne hslot, hc.agrees.parent]
      exact ⟨⟨l, hl⟩, hzero, hfits⟩
  · dsimp only at hmem ⊢
    have hold : ∀ u, c ∈ b u → c = k'.proc.birth c.slot := by
      intro u hm
      have hslot : c.slot ≠ i := fun he => hfresh u (he ▸ List.mem_map_of_mem hm)
      rw [hp, birth_launch hc hslot]
      exact h.births u c hm
    rcases eq_or_ne u t with rfl | hne
    · rw [Function.update_self] at hmem
      rcases List.mem_cons.mp hmem with rfl | hm
      · rfl
      · exact hold u hm
    · rw [Function.update_of_ne hne] at hmem
      exact hold u hmem

theorem Orderly.freed_live {u : Int} (h : Orderly (⟨k, control⟩, b)) (hz : (control u).freed = some i) :
    i ∈ b.live u := by
  cases hcu : control u with
  | user =>
    rw [hcu] at hz
    cases hz
  | halting slot status pc =>
    rw [hcu, Control.freed] at hz
    split at hz
    · obtain rfl := Option.some.inj hz
      obtain ⟨⟨l, hlu⟩, -, -⟩ := h.halting u slot status pc hcu
      dsimp only at hlu
      rw [hlu]
      exact List.mem_cons_self
    · cases hz

theorem Orderly.forgotten_root (h : Orderly (⟨k, control⟩, b))
    (hpc : control t = .halting slot status pc) (hforgotten : pc.forgotten = true) :
    pc.freed = true ∧ (k.proc.pcb slot).parentPcb = none := by
  have hfits := (h.halting t slot status pc hpc).2.2
  cases pc with
  | print => exact ⟨rfl, hfits⟩
  | restart => exact ⟨rfl, hfits⟩
  | _ => cases hforgotten

/-- The shell of a terminal is launched where its `halt` has given up the terminal. -/
theorem Orderly.restarts {esp ebp : Nat} (h : Orderly (⟨k, control⟩, b)) (hc : Calm k.proc r)
    (hpc : control t = .halting slot status pc) (hforgotten : pc.forgotten = true)
    (hn : k'.terminalNum = t) (hi : r.freePid = some i) (hp : k'.proc = r.launch t i [] esp ebp) :
    Orderly (⟨k', Function.update control t .user⟩, Function.update b t [k'.proc.birth i]) := by
  obtain ⟨hfreed, hpar⟩ := h.forgotten_root hpc hforgotten
  obtain ⟨rfl, hl⟩ := h.root hpc hpar
  obtain ⟨s, hsh, hst, hh⟩ := h.shadow
  have hr : Shadow control s r := hsh.calm hc (fun _ => rfl) fun _ => rfl
  have hother : ∀ u, u ≠ t → 0 ∉ b.live u :=
    fun u hu hm => hu (hh.apart u t 0 hm (by rw [hl]; simp))
  have hunfreed : ∀ u, u ≠ t → (control u).freed ≠ some 0 :=
    fun u hu hz => hother u hu (h.freed_live hz)
  -- pid 0 has been free since
  obtain rfl : 0 = i := by
    have hzero : r.pidArray 0 ≠ 1 := by
      rw [hr.loose t 0 (by rw [hpc, Control.freed, if_pos hfreed])]
      decide
    exact Option.some.inj ((Proc.freePid_zero hzero).symm.trans hi)
  have hagain := hh.restart hl status (Proc.freePid_zero (by simp [Proc.releaseRoot])) esp ebp
  have hsame : Function.update b.live t [0] = b.live := by
    rw [← hl]
    exact Function.update_eq_self ..
  have hlive : Births.live (Function.update b t [k'.proc.birth 0]) = b.live :=
    (live_update ..).trans hsame
  refine ⟨?_, ⟨((s.closeAll 0 status).releaseRoot t).launch t 0 [] esp ebp, ?_, ?_, ?_⟩,
    fun u slot' status' pc' hu => ?_, fun u c hmem => ?_⟩
  · dsimp only
    rw [hlive, ← hsame]
    exact h.frame.stack (h.range hpc) hn _
  · dsimp only
    rw [hp]
    exact hr.restart hpc hfreed hforgotten [] esp ebp hunfreed
  · dsimp only
    rw [hlive, ← hsame]
    exact hst.restart hother status esp ebp
  · dsimp only
    rw [hlive]
    exact hagain.2
  · dsimp only at hu ⊢
    rcases halting_update hu with ⟨-, hcontrol⟩ | ⟨hne, hu⟩
    · cases hcontrol
    · obtain ⟨⟨l, hlu⟩, hzero, hfits⟩ := h.halting u slot' status' pc' hu
      dsimp only at hlu hzero hfits
      have hslot : slot' ≠ 0 := fun he => hother u hne (by rw [hlu, he]; simp)
      rw [hlive, hp, Proc.launch_pcb_ne hslot, hc.agrees.parent]
      exact ⟨⟨l, hlu⟩, hzero, hfits⟩
  · dsimp only at hmem ⊢
    rcases eq_or_ne u t with rfl | hne
    · rw [Function.update_self] at hmem
      rw [List.mem_singleton.mp hmem]
      rfl
    · rw [Function.update_of_ne hne] at hmem
      have hslot : c.slot ≠ 0 := fun he => hother u hne (he ▸ List.mem_map_of_mem hmem)
      rw [hp, birth_launch hc hslot]
      exact h.births u c hmem

theorem Orderly.idle (h : Orderly (⟨k, control⟩, b)) (hn : k.terminalNum = -1) (t : Int) :
    k.proc.active t = none := by
  obtain ⟨s, hsh, hst, -⟩ := h.shadow
  cases hf : (control t).forgotten with
  | true => exact hsh.forgotten t hf
  | false =>
    have hactive := hsh.active t hf
    dsimp only at hactive
    rw [hactive, hst.active]
    dsimp only
    rw [h.frame.idle hn t]
    rfl

/-- A terminal without an active process has not started, or its `halt` has given it up. -/
theorem Orderly.vacant (h : Orderly (⟨k, control⟩, b)) (hnone : k.proc.active t = none) :
    (control t = .user ∧ b t = []) ∨
    ∃ slot status pc, control t = .halting slot status pc ∧ pc.forgotten = true := by
  obtain ⟨s, hsh, hst, -⟩ := h.shadow
  cases hf : (control t).forgotten with
  | true =>
    cases hc : control t with
    | user =>
      rw [hc] at hf
      cases hf
    | halting slot status pc =>
      rw [hc] at hf
      exact .inr ⟨slot, status, pc, rfl, hf⟩
  | false =>
    have hactive := hsh.active t hf
    dsimp only at hactive
    rw [hnone, hst.active] at hactive
    have hnil : b.live t = [] := List.head?_eq_none_iff.mp hactive.symm
    refine .inl ⟨?_, List.map_eq_nil_iff.mp hnil⟩
    cases hc : control t with
    | user => rfl
    | halting slot status pc =>
      obtain ⟨⟨l, hl⟩, -, -⟩ := h.halting t slot status pc hc
      dsimp only at hl
      rw [hnil] at hl
      cases hl

/-- The pid a process of terminal `t` is given is not one that a `halt` has freed. -/
theorem Orderly.unfreed (h : Orderly (⟨k, control⟩, b)) (ht : control t = .user)
    (hG : System.Spare ⟨k, control⟩ t) (hc : Calm k.proc r) (hi : r.freePid = some i) (u : Int) :
    (control u).freed ≠ some i := by
  intro hu
  have hhalts : control u ≠ .user := by
    intro huser
    rw [huser] at hu
    cases hu
  have hne : u ≠ t := by
    intro he
    subst he
    exact hhalts ht
  obtain ⟨v, rfl⟩ := h.terminal hhalts
  obtain ⟨p, hp, hfree⟩ := hG v hne i hu
  dsimp only at hfree
  rw [← hc.pidArray] at hfree
  exact hfree ((Proc.freePid_eq_some.mp hi).2 p hp)

theorem Orderly.first {esp ebp : Nat} (h : Orderly (⟨k, control⟩, b)) (hc : Calm k.proc r)
    (hnone : k.proc.active t = none) (ht : 0 ≤ t ∧ t ≤ 2)
    (hG : System.Spare ⟨k, control⟩ t)
    (hn : k'.terminalNum = t) (hi : r.freePid = some i) (hp : k'.proc = r.launch t i [] esp ebp) :
    Orderly (⟨k', Function.update control t .user⟩, Function.update b t [k'.proc.birth i]) := by
  rcases h.vacant hnone with ⟨huser, hnil⟩ | ⟨slot, status, pc, hpc, hforgotten⟩
  · have hstart := h.start hc (h.unfreed huser hG hc hi) huser ht hn hi hp
    rwa [hnil] at hstart
  · exact h.restarts hc hpc hforgotten hn hi hp

theorem register_entered {x y : System} {turn : Turn} {entry : Nat} (hact : y.kernel.active = some i)
    (ht : y.kernel.terminalNum = t) :
    register x turn (some (.entered entry)) y b = Function.update b t
      (y.kernel.proc.birth i :: if (x.kernel.proc.active t).isSome then b t else []) := by
  simp [register, hact, ht]

theorem orderly_event {e : Event} {o : Outcome} (h : Orderly (⟨k, control⟩, b))
    (hG : Undisturbed (⟨k, control⟩, b) (.run e)) (he : e.isHalt = false)
    (hu : e.isInterrupt = true ∨ control k.terminalNum = .user) (hs : k.step fs e = some (o, k')) :
    Orderly (⟨k', System.landed control o k'⟩,
      register ⟨k, control⟩ (.run e) (some o) ⟨k', System.landed control o k'⟩ b) := by
  have hrange := h.frame.range
  dsimp only at hrange
  cases Kernel.step_cases hs with
  | quiet hh hq =>
    obtain ⟨v, data, rfl⟩ := hq.returned
    have hcalm := hq.calm.1
    exact h.stay (birth_calm hcalm) (.inl hq.terminalNum)
      (fun hsh => hsh.calm hcalm (fun _ => rfl) fun _ => rfl) h.halting
  | @child _ a i _ env arg _ ha hi hp hm ht =>
    have huser : control k.terminalNum = .user := by
      rcases hu with hint | huser
      · cases hint
      · exact huser
    have hterm : 0 ≤ k.terminalNum ∧ k.terminalNum ≤ 2 := by
      by_contra hout
      have hidle := h.idle (by omega) k.terminalNum
      rw [← Kernel.active, ha] at hidle
      cases hidle
    have hstart := h.start (.refl _) (h.unfreed huser hG (.refl _) hi) huser hterm ht hi hp
    have hact : k'.active = some i := Kernel.active_launched hp ht
    have hsome : k.proc.active k.terminalNum = some a := ha
    rw [register_entered hact ht, System.landed, ht, hsome]
    exact hstart
  | release => cases he
  | restart => cases he
  | @first _ i esp ebp env _ ha hi hp hm ht =>
    have hcalm : Calm k.proc (k.readied esp ebp).proc := readied_calm h.idle esp ebp
    have hnone : k.proc.active ((k.terminalNum + 1) % 3) = none := by
      rw [← (ticked_calm h.idle esp ebp).active]
      exact ha
    have hfirst := h.first hcalm hnone (by omega) (hG ha) ht hi hp
    have hact : k'.active = some i := Kernel.active_launched hp ht
    rw [register_entered hact ht, System.landed, ht, hnone]
    exact hfirst
  | @switch _ a esp ebp env ha hp hm ht =>
    have hcalm : Calm k.proc k'.proc := by
      rw [hp]
      exact switchTo_calm h.idle esp ebp a
    exact h.stay (birth_calm hcalm) (.inr ht) (fun hsh => hsh.calm hcalm (fun _ => rfl) fun _ => rfl) h.halting

theorem orderly_statement {env : ExecEnv} {g : Goes} (h : Orderly (⟨k, control⟩, b))
    (hpc : control k.terminalNum = .halting slot status pc) (hs : k.statement fs env status pc = some (g, k')) :
    Orderly (match g with
      | .on pc' => (⟨k', Function.update control k.terminalNum (.halting slot status pc')⟩, b)
      | .out o => (⟨k', Function.update control k.terminalNum .user⟩,
          register ⟨k, control⟩ (.next env) (some o) ⟨k', Function.update control k.terminalNum .user⟩ b)) := by
  have hfits := (h.halting _ slot status pc hpc).2.2
  dsimp only at hfits
  cases statement_cases hs with
  | store =>
    refine h.goOn hpc (fun _ => rfl) rfl trivial fun hsh => ?_
    exact hsh.calm ⟨fun _ => ⟨_, _, rfl⟩, fun _ => rfl, rfl⟩ (fun _ => freed_update (by rw [hpc]; rfl))
      fun _ => forgotten_update (by rw [hpc]; rfl)
  | calm hc hret ht hfreed hforgotten hstore hpath =>
    refine h.goOn hpc (birth_calm hc) ht (hpath _ (fun a ha => ?_) hfits) fun hsh => ?_
    · rw [(h.active_slot hpc ha).1]
    · refine hsh.calm hc (fun _ => freed_update ?_) fun _ => forgotten_update ?_
      · rw [hpc, Control.freed, Control.freed, hfreed]
      · rw [hpc, Control.forgotten, Control.forgotten, hforgotten]
  | free ha =>
    obtain ⟨-, hpid⟩ := h.active_slot hpc ha
    refine h.goOn hpc (fun _ => rfl) rfl hfits fun hsh => ?_
    dsimp only
    rw [hpid]
    exact hsh.frees hpc rfl rfl rfl
  | freeZero =>
    obtain ⟨rfl, -⟩ := h.root hpc hfits
    exact h.goOn hpc (fun _ => rfl) rfl hfits fun hsh => hsh.frees hpc rfl rfl rfl
  | forget => exact h.goOn hpc (fun _ => rfl) rfl hfits fun hsh => hsh.forgets hpc
  | @restart i entry n m hi =>
    have ht : (k.launched env i [] m n).terminalNum = k.terminalNum := rfl
    have hagain := h.restarts (.refl _) hpc rfl ht hi rfl
    have hact : (k.launched env i [] m n).active = some i := Kernel.active_launched rfl rfl
    have hnone : k.proc.active k.terminalNum = none := by
      obtain ⟨s, hsh, -⟩ := h.shadow
      exact hsh.forgotten _ (by dsimp only; rw [hpc]; rfl)
    dsimp only
    rw [register_entered hact ht, hnone]
    exact hagain
  | leave ha => exact h.leaves hpc ha rfl rfl

theorem Orderly.calls (h : Orderly (⟨k, control⟩, b)) (huser : control k.terminalNum = .user)
    (ha : k.active = some a) (hG : ∀ a, b.live k.terminalNum = [a] → a = 0) :
    Orderly (⟨k, Function.update control k.terminalNum (.halting a status .store)⟩, b) := by
  have hshadow : ∀ {s}, Shadow control s k.proc →
      Shadow (Function.update control k.terminalNum (.halting a status .store)) s k.proc := by
    intro s hsh
    apply hsh.calm (.refl _)
    · exact fun _ => freed_update (by rw [huser]; rfl)
    · exact fun _ => forgotten_update (by rw [huser]; rfl)
  refine h.stay (fun _ => rfl) (.inl rfl) hshadow fun u slot' status' pc' hu => ?_
  rcases halting_update hu with ⟨rfl, hc⟩ | ⟨-, hu⟩
  · obtain ⟨rfl, rfl, rfl⟩ := Control.halting.inj hc
    obtain ⟨s, hsh, hst, -⟩ := h.shadow
    have hactive := hsh.active k.terminalNum (by dsimp only; rw [huser]; rfl)
    dsimp only at hactive
    rw [← Kernel.active, ha, hst.active] at hactive
    refine ⟨?_, hG a, trivial⟩
    cases hl : b.live k.terminalNum with
    | nil =>
      rw [hl] at hactive
      cases hactive
    | cons c l =>
      rw [hl] at hactive
      obtain rfl : a = c := Option.some.inj hactive
      exact ⟨l, rfl⟩
  · exact h.halting u slot' status' pc' hu

theorem orderly_step {q : System × Births} {turn : Turn} {r : Option Outcome × (System × Births)}
    (h : Orderly q) (hG : Undisturbed q turn) (hs : stepBirths fs q turn = some r) : Orderly r.2 := by
  obtain ⟨⟨k, control⟩, b⟩ := q
  obtain ⟨o, q'⟩ := r
  obtain ⟨s', hstep, rfl⟩ := ghost_eq_some.mp hs
  cases System.step_cases hstep with
  | event he hu hk => exact orderly_event h hG he hu hk
  | call hu ha => exact h.calls hu ha hG
  | on hpc hk => exact orderly_statement h hpc hk
  | out hpc hk => exact orderly_statement h hpc hk

theorem orderly_boot (p : Paging) (mem : Bytes.Memory) : Orderly (System.boot p mem, fun _ => []) where
  frame := frame_boot p mem
  shadow := ⟨(Kernel.boot p mem).proc,
    ⟨fun _ => rfl, fun _ => rfl, fun _ _ => rfl, nofun, fun _ _ => rfl, nofun⟩,
    (tableOk_boot p mem).linked, (tableOk_boot p mem).holders⟩
  halting := nofun
  births := nofun

/-! ## Starts and returns -/

section
variable {x y : System} {turn : Turn} {o : Outcome} {esp ebp v entry : Nat}

theorem event_outcome {e : Event} (he : e.isHalt = false) (hs : k.step fs e = some (o, k')) :
    o ≠ .resumed esp ebp v := by
  intro hr
  subst hr
  cases Kernel.step_cases hs with
  | quiet hh hq =>
    obtain ⟨v, data, ho⟩ := hq.returned
    cases ho
  | release => cases he

theorem resumed_leave (hs : x.step fs turn = some (some (.resumed esp ebp v), y)) :
    ∃ slot status a, x.control x.kernel.terminalNum = .halting slot status .leave ∧
      x.kernel.active = some a ∧ esp = (x.kernel.proc.pcb a).esp ∧ ebp = (x.kernel.proc.pcb a).ebp ∧
      v = x.kernel.proc.retVal ∧ y.kernel.active = (x.kernel.proc.pcb a).parentPcb := by
  cases System.step_cases hs with
  | event he hu hk => exact absurd rfl (event_outcome he hk)
  | out hpc hk =>
    cases statement_cases hk with
    | leave ha => exact ⟨_, _, _, hpc, ha, rfl, rfl, rfl, setActive_active ..⟩

/-- A start puts its terminal in user code and leaves the others where they are. -/
theorem entered_control (hs : x.step fs turn = some (some (.entered entry), y)) :
    y.control = Function.update x.control y.kernel.terminalNum .user := by
  cases System.step_cases hs with
  | event he hu hk => rfl
  | out hpc hk =>
    dsimp only
    rw [statement_terminalNum hk]

/-- The process of a terminal in user code is in no other terminal's `halt`. -/
theorem Orderly.apart (h : Orderly (⟨k, control⟩, b)) (huser : control k.terminalNum = .user)
    (hne : t ≠ k.terminalNum) (hpc : control t = .halting slot status pc) : k.active ≠ some slot := by
  intro ha
  obtain ⟨s, hsh, hst, hh⟩ := h.shadow
  obtain ⟨⟨l, hl⟩, -, -⟩ := h.halting t slot status pc hpc
  have hactive := hsh.active k.terminalNum (by dsimp only; rw [huser]; rfl)
  dsimp only at hactive hl
  rw [← Kernel.active, ha, hst.active] at hactive
  exact hne (hh.apart t k.terminalNum slot (by dsimp only; rw [hl]; simp) (List.mem_of_head? hactive.symm))

/-- A process is started in a terminal that is in a `halt` only where that has given the
terminal up. -/
theorem Orderly.entered (h : Orderly (⟨k, control⟩, b))
    (hs : System.step fs ⟨k, control⟩ turn = some (some (.entered entry), y))
    (hpc : control y.kernel.terminalNum = .halting slot status pc) : pc.forgotten = true := by
  cases System.step_cases hs with
  | event he hu hk =>
    cases Kernel.step_cases hk with
    | quiet hh hq =>
      obtain ⟨v, data, ho⟩ := hq.returned
      cases ho
    | child ha hi hp hm ht =>
      rcases hu with hint | huser
      · cases hint
      · dsimp only at hpc huser
        rw [ht, huser] at hpc
        cases hpc
    | restart => cases he
    | @first _ i esp ebp env _ ha hi hp hm ht =>
      dsimp only at hpc
      rw [ht] at hpc
      have hnone : k.proc.active ((k.terminalNum + 1) % 3) = none := by
        rw [← (ticked_calm h.idle esp ebp).active]
        exact ha
      rcases h.vacant hnone with ⟨huser, -⟩ | ⟨slot', status', pc', hpc', hforgotten⟩
      · rw [huser] at hpc
        cases hpc
      · rw [hpc'] at hpc
        obtain ⟨-, -, rfl⟩ := Control.halting.inj hpc
        exact hforgotten
  | out hpc' hk =>
    dsimp only at hpc hpc' hk
    rw [statement_terminalNum hk, hpc'] at hpc
    obtain ⟨-, -, rfl⟩ := Control.halting.inj hpc
    cases statement_cases hk with
    | restart => rfl

theorem Orderly.record (h : Orderly (⟨k, control⟩, b)) (hpc : control k.terminalNum = .halting slot status pc)
    (ha : k.active = some a) :
    ∃ c l, b k.terminalNum = c :: l ∧ c.slot = slot ∧ c = k.proc.birth a := by
  obtain ⟨rfl, -⟩ := h.active_slot hpc ha
  obtain ⟨⟨l, hl⟩, -, -⟩ := h.halting _ a status pc hpc
  dsimp only [Births.live] at hl
  cases hb : b k.terminalNum with
  | nil =>
    rw [hb] at hl
    cases hl
  | cons c l' =>
    rw [hb] at hl
    obtain ⟨hslot, -⟩ := List.cons.inj hl
    have hbirth := h.births k.terminalNum c (by dsimp only; rw [hb]; simp)
    rw [hslot] at hbirth
    exact ⟨c, l', rfl, hslot, hbirth⟩

end

/-- In every run from boot in which a process is started only while there is a free pid below each
that the `halt` of another terminal has freed, and no root shell other than pid 0 halts,
with ticks between any two statements: no process is given the slot of a process that is halting, but for the shell
that replaces pid 0's in the terminal its own `halt` has given up; and a `halt` that leaves
jumps to the stack and returns to the parent that were stored when its process was
started. -/
theorem halt_keeps_slot (fs : Fs) (p : Paging) (mem : Bytes.Memory) (turns : List Turn) (turn : Turn)
    (x y : System) (b b' : Births) (o : Option Outcome)
    (hr : run (stepBirths fs) (System.boot p mem, fun _ => []) turns = some (x, b))
    (hG : Meets (stepBirths fs) Undisturbed (System.boot p mem, fun _ => []) (turns ++ [turn]))
    (hs : stepBirths fs (x, b) turn = some (o, (y, b'))) :
    (∀ entry, o = some (.entered entry) → ∀ u slot status pc, x.control u = .halting slot status pc →
      (u = y.kernel.terminalNum → pc.forgotten = false) → y.kernel.active ≠ some slot) ∧
    (∀ esp ebp v, o = some (.resumed esp ebp v) → ∃ c l status, b x.kernel.terminalNum = c :: l ∧
      x.control x.kernel.terminalNum = .halting c.slot status .leave ∧
      esp = c.esp ∧ ebp = c.ebp ∧ y.kernel.active = c.parent) := by
  obtain ⟨hG, hlast, -⟩ := (meets_append hr).mp hG
  have h : Orderly (x, b) := run_invariant orderly_step (orderly_boot p mem) hG hr
  have h' : Orderly (y, b') := orderly_step h hlast hs
  obtain ⟨y', hstep, heq⟩ := ghost_eq_some.mp hs
  obtain ⟨rfl, -⟩ := Prod.mk.inj heq
  constructor
  · intro entry ho u slot status pc hpc hown
    subst ho
    have hcontrol := entered_control hstep
    have hne : u ≠ y.kernel.terminalNum := by
      intro he
      subst he
      have hforgotten := h.entered hstep hpc
      rw [hown rfl] at hforgotten
      cases hforgotten
    apply h'.apart (t := u)
    · rw [hcontrol, Function.update_self]
    · exact hne
    · rw [hcontrol, Function.update_of_ne hne]
      exact hpc
  · intro esp ebp v ho
    subst ho
    obtain ⟨slot, status, a, hpc, ha, rfl, rfl, -, hback⟩ := resumed_leave hstep
    obtain ⟨c, l, hb, hslot, hbirth⟩ := h.record hpc ha
    refine ⟨c, l, status, hb, ?_, ?_, ?_, ?_⟩
    · rw [hslot]
      exact hpc
    · rw [hbirth]
      rfl
    · rw [hbirth]
      rfl
    · rw [hbirth, hback]
      rfl

instance (x : System) (t : Int) : Decidable (x.Spare t) :=
  inferInstanceAs (Decidable (∀ u : Fin 3, (u.val : Int) ≠ t → ∀ q, (x.control u.val).freed = some q →
    ∃ p < q, x.kernel.proc.pidArray p ≠ 1))

instance (q : System × Births) : (turn : Turn) → Decidable (Undisturbed q turn)
  | .run (.execute _ _) => inferInstanceAs (Decidable (q.1.Spare q.1.kernel.terminalNum))
  | .run (.tick esp ebp _) => inferInstanceAs (Decidable ((q.1.kernel.ticked esp ebp).active = none →
      q.1.Spare ((q.1.kernel.terminalNum + 1) % 3)))
  | .halt _ => inferInstanceAs (Decidable (∀ a, q.2.live q.1.kernel.terminalNum = [a] → a = 0))
  | .run (.key _) | .run .controlL | .run (.altF _) | .run .rtc | .run (.halt _ _) | .run (.read _ _ _)
  | .run (.write _ _ _) | .run (.openFile _ _) | .run (.close _) | .run (.getargs _ _) | .run (.vidmap _)
  | .run (.store _ _) | .next _ => .isTrue trivial

/-- All terminals run. A child of the first shell halts, and when it has freed its pid ticks
go round the terminals. -/
def freedRound : List Turn :=
  Turn.ticks 4 ++ [.shell 100 200, .halt 7] ++ Turn.nexts 7 ++ Turn.ticks 3 ++ Turn.nexts 130

theorem freedRound_leaves :
    ∃ x b y b', run (stepBirths smallFs) (System.boot linkedPaging fun _ => 0, fun _ => []) freedRound =
        some (x, b) ∧
      stepBirths smallFs (x, b) (.next zeroEnv) = some (some (.resumed 100 200 7), (y, b')) := by
  have hrun : ((run (stepBirths smallFs) (System.boot linkedPaging fun _ => 0, fun _ => []) freedRound).bind
      fun q => (stepBirths smallFs q (.next zeroEnv)).map fun r => r.1) = some (some (.resumed 100 200 7)) := by
    decide +kernel
  obtain ⟨⟨x, b⟩, hr, hrun⟩ := Option.bind_eq_some_iff.mp hrun
  obtain ⟨⟨o, y, b'⟩, hs, rfl⟩ := Option.map_eq_some_iff.mp hrun
  exact ⟨x, b, y, b', hr, hs⟩

/-- The child leaves with what it was started with. -/
theorem halt_keeps_slot_round :
    ∃ x b y b' c l, run (stepBirths smallFs) (System.boot linkedPaging fun _ => 0, fun _ => []) freedRound =
        some (x, b) ∧
      stepBirths smallFs (x, b) (.next zeroEnv) = some (some (.resumed 100 200 7), (y, b')) ∧
      b x.kernel.terminalNum = c :: l ∧ c.esp = 100 ∧ c.ebp = 200 ∧ y.kernel.active = c.parent := by
  obtain ⟨x, b, y, b', hr, hs⟩ := freedRound_leaves
  have h := halt_keeps_slot smallFs linkedPaging (fun _ => 0) freedRound (.next zeroEnv) x y b b' _ hr
    (by decide +kernel) hs
  obtain ⟨c, l, status, hb, -, hesp, hebp, hback⟩ := h.2 100 200 7 rfl
  exact ⟨x, b, y, b', c, l, hr, hs, hb, hesp.symm, hebp.symm, hback⟩

/-- A child of the first shell halts and has freed its pid, and the second terminal has not
started yet. -/
def freedSlot : List Turn :=
  Turn.ticks 1 ++ [.shell 100 200, .halt 7] ++ Turn.nexts 7

/-- The shell of the second terminal is given the slot of the `halt` that is preempted. -/
theorem slot_taken :
    ∃ x b y b' entry, run (stepBirths smallFs) (System.boot linkedPaging fun _ => 0, fun _ => [])
        freedSlot = some (x, b) ∧ x.control 0 = .halting 1 7 (.clear 0) ∧
      (b 0).head? = some ⟨1, 100, 200, some 0⟩ ∧
      stepBirths smallFs (x, b) (.run (.tick 0 0 ⟨300, 400, fun _ => 0, fun _ => 0⟩)) =
        some (some (.entered entry), (y, b')) ∧ y.kernel.terminalNum = 1 ∧ y.kernel.active = some 1 ∧
      y.control 0 = .halting 1 7 (.clear 0) ∧
      y.kernel.proc.birth 1 = ⟨1, 300, 400, some 0⟩ := by
  have hrun : ((run (stepBirths smallFs) (System.boot linkedPaging fun _ => 0, fun _ => []) freedSlot).bind
      fun q => (stepBirths smallFs q (.run (.tick 0 0 ⟨300, 400, fun _ => 0, fun _ => 0⟩))).map fun r =>
        (q.1.control 0, r.1, r.2.1.kernel.terminalNum, r.2.1.kernel.active)) =
      some (.halting 1 7 (.clear 0), some (.entered 0x08048000), 1, some 1) := by decide +kernel
  have hslot : ((run (stepBirths smallFs) (System.boot linkedPaging fun _ => 0, fun _ => []) freedSlot).bind
      fun q => (stepBirths smallFs q (.run (.tick 0 0 ⟨300, 400, fun _ => 0, fun _ => 0⟩))).map fun r =>
        ((q.2 0).head?, r.2.1.control 0, r.2.1.kernel.proc.birth 1)) =
      some (some ⟨1, 100, 200, some 0⟩, .halting 1 7 (.clear 0), ⟨1, 300, 400, some 0⟩) := by decide +kernel
  obtain ⟨⟨x, b⟩, hr, hrun⟩ := Option.bind_eq_some_iff.mp hrun
  obtain ⟨⟨o, y, b'⟩, hs, hq⟩ := Option.map_eq_some_iff.mp hrun
  rw [hr, Option.bind_some, hs, Option.map_some] at hslot
  simp only [Option.some.injEq, Prod.mk.injEq] at hq hslot
  obtain ⟨hc, rfl, ht, ha⟩ := hq
  exact ⟨x, b, y, b', _, hr, hc, hslot.1, hs, ht, ha, hslot.2.1, hslot.2.2⟩

/-! ## The status -/

/-- The status that a `halt` has stored and is going to return to a parent. -/
def Proc.awaited (s : Proc) : Control → Option UInt8
  | .user => none
  | .halting slot status pc =>
    if pc ≠ .store ∧ (s.pcb slot).parentPcb ≠ none then some status else none

/-- The status that a `halt` stores next. -/
def Control.stores : Control → Option UInt8
  | .halting _ status .store => some status
  | _ => none

/-- A `halt` stores its status while no `halt` of another terminal is going to return a
different one. -/
def OneStatus (q : System × Births) : Turn → Prop
  | .next _ => ∀ status, (q.1.control q.1.kernel.terminalNum).stores = some status →
      ∀ u : Fin 3, (u.val : Int) ≠ q.1.kernel.terminalNum →
        ∀ v, q.1.kernel.proc.awaited (q.1.control u.val) = some v → v = status
  | _ => True

/-- `ret_val` holds what each `halt` is going to return. -/
def Told (q : System × Births) : Prop :=
  ∀ t v, q.1.kernel.proc.awaited (q.1.control t) = some v → q.1.kernel.proc.retVal = v.toNat

section
variable {x y : System} {b' : Births} {turn : Turn} {o : Outcome} {u : Int} {v : UInt8}

theorem awaited_halting : s.awaited (.halting slot status pc) = some v ↔
    pc ≠ .store ∧ (s.pcb slot).parentPcb ≠ none ∧ status = v := by
  simp only [Proc.awaited]
  split
  · rename_i hc
    simp [hc]
  · rename_i hc
    simp only [reduceCtorEq, false_iff]
    intro hall
    exact hc ⟨hall.1, hall.2.1⟩

/-- The parent of a halting process does not change while its terminal's record does not. -/
theorem Orderly.parent_kept (h : Orderly (x, b)) (h' : Orderly (y, b')) (hb : b' t = b t)
    (hpc : x.control t = .halting slot status pc) :
    (y.kernel.proc.pcb slot).parentPcb = (x.kernel.proc.pcb slot).parentPcb := by
  obtain ⟨⟨l, hl⟩, -, -⟩ := h.halting t slot status pc hpc
  have hmem : slot ∈ (b t).map Birth.slot := by
    change slot ∈ b.live t
    dsimp only at hl
    rw [hl]
    simp
  obtain ⟨c, hc, rfl⟩ := List.mem_map.mp hmem
  have hold := congrArg Birth.parent (h.births t c hc)
  have hnew := congrArg Birth.parent (h'.births t c (by dsimp only; rw [hb]; exact hc))
  exact hnew.symm.trans hold

theorem Orderly.awaited_kept (h : Orderly (x, b)) (h' : Orderly (y, b')) (hb : b' t = b t)
    (hc : y.control t = x.control t) (ha : y.kernel.proc.awaited (y.control t) = some v) :
    x.kernel.proc.awaited (x.control t) = some v := by
  rw [hc] at ha
  cases hpc : x.control t with
  | user =>
    rw [hpc] at ha
    cases ha
  | halting slot status pc =>
    rw [hpc, awaited_halting] at ha
    rw [awaited_halting, ← h.parent_kept h' hb hpc]
    exact ha

theorem event_retVal {e : Event} (he : e.isHalt = false) (hs : k.step fs e = some (o, k')) :
    k'.proc.retVal = k.proc.retVal := by
  cases Kernel.step_cases hs with
  | quiet hh hq => exact hq.calm.2.2
  | child ha hi hp hm ht => rw [hp]; rfl
  | release => cases he
  | restart => cases he
  | first ha hi hp hm ht => rw [hp]; rfl
  | switch ha hp hm ht => rw [hp]; rfl

theorem register_other {out : Option Outcome} (hu : u ≠ y.kernel.terminalNum)
    (hu' : u ≠ x.kernel.terminalNum ∨ ∀ esp ebp v, out ≠ some (.resumed esp ebp v)) :
    register x turn out y b u = b u := by
  cases out with
  | none => rfl
  | some o =>
    cases o with
    | returned => rfl
    | switched => rfl
    | entered entry =>
      cases ha : y.kernel.active with
      | none => simp [register, ha]
      | some i =>
        rw [register_entered ha rfl]
        exact Function.update_of_ne hu ..
    | resumed esp ebp v =>
      rcases hu' with hne | hno
      · exact Function.update_of_ne hne ..
      · exact absurd rfl (hno esp ebp v)

theorem told_event {e : Event} (h : Orderly (x, b)) (ht : Told (x, b)) (he : e.isHalt = false)
    (hk : x.kernel.step fs e = some (o, k'))
    (h' : Orderly (⟨k', System.landed x.control o k'⟩,
      register x (.run e) (some o) ⟨k', System.landed x.control o k'⟩ b)) :
    Told (⟨k', System.landed x.control o k'⟩,
      register x (.run e) (some o) ⟨k', System.landed x.control o k'⟩ b) := by
  intro u v ha
  have hret := event_retVal he hk
  dsimp only at ha ⊢
  rw [hret]
  cases o with
  | returned => exact ht u v (h.awaited_kept h' rfl rfl ha)
  | switched => exact ht u v (h.awaited_kept h' rfl rfl ha)
  | resumed => exact absurd rfl (event_outcome he hk)
  | entered entry =>
    rcases eq_or_ne u k'.terminalNum with rfl | hne
    · rw [System.landed, Function.update_self] at ha
      cases ha
    · refine ht u v (h.awaited_kept h' ?_ ?_ ha)
      · exact register_other hne (.inr nofun)
      · exact Function.update_of_ne hne ..

theorem told_on {env : ExecEnv} (h : Orderly (⟨k, control⟩, b)) (ht : Told (⟨k, control⟩, b))
    (hG : OneStatus (⟨k, control⟩, b) (.next env)) (hpc : control k.terminalNum = .halting slot status pc)
    (hk : k.statement fs env status pc = some (.on pc', k'))
    (h' : Orderly (⟨k', Function.update control k.terminalNum (.halting slot status pc')⟩, b)) :
    Told (⟨k', Function.update control k.terminalNum (.halting slot status pc')⟩, b) := by
  -- the other terminals wait for what they waited for
  have hother : ∀ u v, u ≠ k.terminalNum →
      k'.proc.awaited (Function.update control k.terminalNum (.halting slot status pc') u) = some v →
      k.proc.awaited (control u) = some v := by
    intro u v hne ha
    exact h.awaited_kept h' rfl (Function.update_of_ne hne ..) ha
  intro u v ha
  dsimp only at ha ⊢
  rcases eq_or_ne pc .store with rfl | hstore
  · obtain ⟨-, rfl⟩ := Prod.mk.inj (Option.some.inj hk)
    dsimp only at ha ⊢
    rcases eq_or_ne u k.terminalNum with rfl | hne
    · rw [Function.update_self, awaited_halting] at ha
      rw [ha.2.2]
    · have hold := hother u v hne ha
      have hhalts : control u ≠ .user := by
        intro huser
        rw [huser] at hold
        cases hold
      obtain ⟨w, rfl⟩ := h.terminal hhalts
      have hstores : (control k.terminalNum).stores = some status := by
        rw [hpc]
        rfl
      rw [hG status hstores w hne v hold]
  · have hret : k'.proc.retVal = k.proc.retVal := by
      cases statement_cases hk with
      | store => exact absurd rfl hstore
      | calm hc hret => exact hret
      | free => rfl
      | freeZero => rfl
      | forget => rfl
    rw [hret]
    rcases eq_or_ne u k.terminalNum with rfl | hne
    · rw [Function.update_self, awaited_halting, h.parent_kept h' rfl hpc] at ha
      apply ht k.terminalNum v
      dsimp only
      rw [hpc, awaited_halting]
      exact ⟨hstore, ha.2⟩
    · exact ht u v (hother u v hne ha)

theorem out_retVal {env : ExecEnv} {status : UInt8} {k k' : Kernel} {pc : Pc} {o : Outcome}
    (hk : k.statement fs env status pc = some (.out o, k')) : k'.proc.retVal = k.proc.retVal := by
  cases statement_cases hk with
  | restart => rfl
  | leave => rfl

theorem told_step (h : Orderly (x, b)) (ht : Told (x, b)) (hG : OneStatus (x, b) turn) {out : Option Outcome}
    (hs : x.step fs turn = some (out, y)) (h' : Orderly (y, register x turn out y b)) :
    Told (y, register x turn out y b) := by
  obtain ⟨k, control⟩ := x
  cases System.step_cases hs with
  | event he hu hk => exact told_event h ht he hk h'
  | @call a status hu ha =>
    intro u v hawait
    dsimp only at hawait ⊢
    rcases eq_or_ne u k.terminalNum with rfl | hne
    · rw [Function.update_self, awaited_halting] at hawait
      exact absurd rfl hawait.1
    · exact ht u v (h.awaited_kept h' rfl (Function.update_of_ne hne ..) hawait)
  | on hpc hk => exact told_on h ht hG hpc hk h'
  | out hpc hk =>
    intro u v hawait
    have hterm := statement_terminalNum hk
    dsimp only at hawait hterm ⊢
    rcases eq_or_ne u k.terminalNum with rfl | hne
    · rw [Function.update_self] at hawait
      cases hawait
    · rw [out_retVal hk]
      refine ht u v (h.awaited_kept h' ?_ (Function.update_of_ne hne ..) hawait)
      apply register_other
      · dsimp only
        rw [hterm]
        exact hne
      · exact .inl hne

end

/-- In every run from boot that also stores no status while another terminal's `halt` is going
to return a different one, with ticks between any two statements: each `execute` that
returns, returns the status its own child passed to `halt`. -/
theorem execute_returns_status (fs : Fs) (p : Paging) (mem : Bytes.Memory) (turns : List Turn) (turn : Turn)
    (x y : System) (b b' : Births) (esp ebp v : Nat)
    (hr : run (stepBirths fs) (System.boot p mem, fun _ => []) turns = some (x, b))
    (hG : Meets (stepBirths fs) (fun q turn => Undisturbed q turn ∧ OneStatus q turn)
      (System.boot p mem, fun _ => []) turns)
    (hs : stepBirths fs (x, b) turn = some (some (.resumed esp ebp v), (y, b'))) :
    ∃ c l status, b x.kernel.terminalNum = c :: l ∧
      x.control x.kernel.terminalNum = .halting c.slot status .leave ∧
      esp = c.esp ∧ ebp = c.ebp ∧ y.kernel.active = c.parent ∧ v = status.toNat := by
  have hboth : Orderly (x, b) ∧ Told (x, b) := by
    refine run_invariant (I := fun q => Orderly q ∧ Told q) ?_ ⟨orderly_boot p mem, nofun⟩ hG hr
    intro q turn r h hG hs
    have h' := orderly_step h.1 hG.1 hs
    obtain ⟨s', hstep, heq⟩ := ghost_eq_some.mp hs
    rw [heq] at h' ⊢
    exact ⟨h', told_step h.1 h.2 hG.2 hstep h'⟩
  obtain ⟨h, htold⟩ := hboth
  obtain ⟨y', hstep, heq⟩ := ghost_eq_some.mp hs
  obtain ⟨rfl, -⟩ := Prod.mk.inj heq
  obtain ⟨slot, status, a, hpc, ha, rfl, rfl, rfl, hback⟩ := resumed_leave hstep
  obtain ⟨c, l, hb, rfl, hbirth⟩ := h.record hpc ha
  have hawait : x.kernel.proc.awaited (x.control x.kernel.terminalNum) = some status := by
    rw [hpc, awaited_halting]
    exact ⟨nofun, (h.halting _ c.slot status .leave hpc).2.2, rfl⟩
  refine ⟨c, l, status, hb, hpc, ?_, ?_, ?_, htold _ status hawait⟩
  · rw [hbirth]
    rfl
  · rw [hbirth]
    rfl
  · rw [hbirth, hback]
    rfl

instance (q : System × Births) : (turn : Turn) → Decidable (OneStatus q turn)
  | .next _ => inferInstanceAs (Decidable (∀ status, (q.1.control q.1.kernel.terminalNum).stores = some status →
      ∀ u : Fin 3, (u.val : Int) ≠ q.1.kernel.terminalNum →
        ∀ v, q.1.kernel.proc.awaited (q.1.control u.val) = some v → v = status))
  | .run _ | .halt _ => .isTrue trivial

theorem execute_returns_status_round :
    ∃ x b y b', run (stepBirths smallFs) (System.boot linkedPaging fun _ => 0, fun _ => []) freedRound =
        some (x, b) ∧
      stepBirths smallFs (x, b) (.next zeroEnv) = some (some (.resumed 100 200 7), (y, b')) ∧
      ∃ c l status, b x.kernel.terminalNum = c :: l ∧
        x.control x.kernel.terminalNum = .halting c.slot status .leave ∧ status.toNat = 7 := by
  obtain ⟨x, b, y, b', hr, hs⟩ := freedRound_leaves
  have h := execute_returns_status smallFs linkedPaging (fun _ => 0) freedRound (.next zeroEnv) x y b b' 100 200 7
    hr (by decide +kernel) hs
  obtain ⟨c, l, status, hb, hpc, -, -, -, hv⟩ := h
  exact ⟨x, b, y, b', hr, hs, c, l, status, hb, hpc, hv.symm⟩

/-- Children of the first two shells. The one in the first terminal calls `halt(1)` and stores
its status, the one in the second calls `halt(2)` and leaves, and the first `halt` goes on
up to its last statement. -/
def twoStatuses : List Turn :=
  Turn.ticks 4 ++ [.shell 100 200] ++ Turn.ticks 1 ++ [.shell 300 400] ++ Turn.ticks 2 ++
  [.halt 1] ++ Turn.nexts 1 ++ Turn.ticks 1 ++ [.halt 2] ++ Turn.nexts 138 ++ Turn.ticks 2 ++ Turn.nexts 136

/-- The `execute` of the first shell returns the status of the second shell's child. -/
theorem status_replaced :
    ∃ x b y b', run (stepBirths smallFs) (System.boot linkedPaging fun _ => 0, fun _ => []) twoStatuses =
        some (x, b) ∧
      x.kernel.terminalNum = 0 ∧ (b 0).head? = some ⟨3, 100, 200, some 0⟩ ∧ x.control 0 = .halting 3 1 .leave ∧
      stepBirths smallFs (x, b) (.next zeroEnv) = some (some (.resumed 100 200 2), (y, b')) := by
  have hrun : ((run (stepBirths smallFs) (System.boot linkedPaging fun _ => 0, fun _ => []) twoStatuses).bind
      fun q => (stepBirths smallFs q (.next zeroEnv)).map fun r =>
        (q.1.kernel.terminalNum, (q.2 0).head?, q.1.control 0, r.1)) =
      some (0, some ⟨3, 100, 200, some 0⟩, .halting 3 1 .leave, some (.resumed 100 200 2)) := by decide +kernel
  obtain ⟨⟨x, b⟩, hr, hrun⟩ := Option.bind_eq_some_iff.mp hrun
  obtain ⟨⟨o, y, b'⟩, hs, hq⟩ := Option.map_eq_some_iff.mp hrun
  simp only [Prod.mk.injEq] at hq
  obtain ⟨ht, hb, hc, rfl⟩ := hq
  exact ⟨x, b, y, b', hr, ht, hb, hc, hs⟩

end Flipit

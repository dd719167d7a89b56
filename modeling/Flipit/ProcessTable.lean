import Flipit.Scheduler
import Mathlib.Data.List.Chain
import Mathlib.Data.List.Nodup
import Mathlib.Data.List.Count

/- The process table over whole runs: who holds a pid, and who returns to whom.

   The specification's own record (`Live`) is a stack of pids for each terminal: the
   processes started there and not yet halted, the latest first. `step_move` says
   how a step of the kernel moves table and record together: nothing, a push, a pop
   or a restart of the root shell. Both results of this module are inductions over
   moves.

   `halt` of a process without a parent frees pid 0, whatever the process's own pid
   is. As long as no root shell other than pid 0 halts, a pid is taken exactly while
   one live process has it (`pid_array_consistent`); the second shell to be started
   breaks it by halting (`pid_array_leaks`).

   `execute` writes `parent_pcb` only where the terminal has an active process, so a
   root shell inherits what the last owner of its slot left there. As long as root
   shells are started in slots without a parent, the chain of parents is the stack
   (`parent_chain_is_stack`); after a child's slot was given to a root shell it is
   not (`parent_chain_crosses`). -/
namespace Flipit
open Machine

/-- For each terminal the pids of its live processes, the latest first. -/
abbrev Live := Int → List (Fin 8)

def Event.isHalt : Event → Bool
  | .halt _ _ => true
  | _ => false

/-- A halt takes the halting process off; a process that was entered goes on top of the
terminal it runs in. -/
def account (k : Kernel) (e : Event) (o : Outcome) (k' : Kernel) (live : Live) : Live :=
  let live := if e.isHalt then Function.update live k.terminalNum (live k.terminalNum).tail else live
  match o with
  | .entered _ => Function.update live k'.terminalNum (k'.active.toList ++ live k'.terminalNum)
  | _ => live

/-- The kernel with the record. -/
def stepLive (fs : Fs) : Kernel × Live → Event → Option (Outcome × (Kernel × Live)) :=
  ghost (Kernel.step fs) account

def Live.all (live : Live) : List (Fin 8) := live 0 ++ live 1 ++ live 2

/-! ## Stacks -/

/-- The active process is the top of the stack, and below each process is its parent. -/
structure Stacks (s : Proc) (live : Live) : Prop where
  active : ∀ t, s.active t = (live t).head?
  links : ∀ t, (live t).IsChain fun a b => (s.pcb a).parentPcb = some b

/-- The same owners, pointers and pids; descriptors and registers may differ. -/
structure Agrees (s s' : Proc) : Prop where
  active : ∀ t, s'.active t = s.active t
  pidArray : s'.pidArray = s.pidArray
  parent : ∀ a, (s'.pcb a).parentPcb = (s.pcb a).parentPcb
  pid : ∀ a, (s'.pcb a).pid = (s.pcb a).pid

theorem Agrees.freePid {s s' : Proc} (h : Agrees s s') : s'.freePid = s.freePid := by
  rw [Proc.freePid, Proc.freePid, h.pidArray]

/-- No start, no release: a block changes at most in its descriptors and its argument
string, and who is active and `pid_array` stay. -/
structure Calm (s s' : Proc) : Prop where
  block : ∀ a, ∃ fds arg, s'.pcb a = { s.pcb a with fileDescriptorTable := fds, arg := arg }
  active : ∀ t, s'.active t = s.active t
  pidArray : s'.pidArray = s.pidArray

variable {k k' : Kernel} {s s' : Proc} {live live' : Live} {t : Int} {a i p : Fin 8} {e : Event}
  {o : Outcome} {fs : Fs}

theorem Calm.agrees (h : Calm s s') : Agrees s s' where
  active := h.active
  pidArray := h.pidArray
  parent := by
    intro a
    obtain ⟨fds, arg, hblock⟩ := h.block a
    rw [hblock]
  pid := by
    intro a
    obtain ⟨fds, arg, hblock⟩ := h.block a
    rw [hblock]

theorem Calm.refl (s : Proc) : Calm s s := ⟨fun _ => ⟨_, _, rfl⟩, fun _ => rfl, rfl⟩

theorem Calm.trans {s'' : Proc} (h : Calm s s') (h' : Calm s' s'') : Calm s s'' := by
  refine ⟨fun a => ?_, fun t => (h'.active t).trans (h.active t), h'.pidArray.trans h.pidArray⟩
  obtain ⟨fds, arg, hblock⟩ := h.block a
  obtain ⟨fds', arg', hblock'⟩ := h'.block a
  exact ⟨fds', arg', by rw [hblock', hblock]⟩

theorem Calm.onFd (s : Proc) (a fd : Fin 8) (f : FileT → FileT) : Calm s (s.onFd a fd f) := by
  refine ⟨fun b => ?_, fun _ => rfl, rfl⟩
  by_cases hb : b = a
  · subst hb
    exact ⟨_, _, Function.update_self ..⟩
  · exact ⟨_, _, Function.update_of_ne hb ..⟩

theorem Kernel.Quiet.calm (h : Kernel.Quiet e k o k') :
    Calm k.proc k'.proc ∧ k'.proc.tss = k.proc.tss ∧ k'.proc.retVal = k.proc.retVal := by
  rcases h.table with hp | ⟨a, fd, f, hd⟩
  · rw [hp]
    exact ⟨.refl _, rfl, rfl⟩
  · rw [hd.proc]
    exact ⟨.onFd .., rfl, rfl⟩

section
variable (hidle : k.terminalNum = -1 → ∀ t, k.proc.active t = none) (esp ebp : Nat)
include hidle

theorem ticked_calm : Calm k.proc (k.ticked esp ebp).proc := by
  refine ⟨fun _ => ⟨_, _, rfl⟩, fun t => ?_, rfl⟩
  simp only [Kernel.ticked, Kernel.tickInit, Proc.active]
  split
  · rename_i hfresh
    have hfirst : k.terminalNum = -1 := by
      simp only [Kernel.fresh, Bool.and_eq_true, beq_iff_eq] at hfresh
      exact hfresh.1
    exact (hidle hfirst t).symm
  · rfl

theorem readied_calm : Calm k.proc (k.readied esp ebp).proc := by
  apply (ticked_calm hidle esp ebp).trans
  exact ⟨fun _ => ⟨_, _, rfl⟩, fun _ => Proc.saveContext_active .., rfl⟩

theorem switchTo_calm (a : Fin 8) :
    Calm k.proc ((k.ticked esp ebp).proc.switchTo ((k.terminalNum + 1) % 3) a esp ebp) := by
  apply (ticked_calm hidle esp ebp).trans
  exact ⟨fun _ => ⟨_, _, rfl⟩, fun _ => Proc.switchTo_active .., rfl⟩

end

theorem Stacks.agrees (h : Stacks s live) (hs : Agrees s s') : Stacks s' live where
  active := fun t => (hs.active t).trans (h.active t)
  links := fun t => (h.links t).imp fun a _ hab => (hs.parent a).trans hab

theorem Stacks.update {l : List (Fin 8)} (h : Stacks s live) (hact : s'.active t = l.head?)
    (hother : ∀ u, u ≠ t → s'.active u = s.active u)
    (hl : l.IsChain fun a b => (s'.pcb a).parentPcb = some b)
    (hlinks : ∀ u, u ≠ t → (live u).IsChain fun a b => (s'.pcb a).parentPcb = some b) :
    Stacks s' (Function.update live t l) := by
  constructor
  · intro u
    by_cases hu : u = t
    · subst hu
      rw [Function.update_self, hact]
    · rw [Function.update_of_ne hu, hother u hu, h.active]
  · intro u
    by_cases hu : u = t
    · subst hu
      rw [Function.update_self]
      exact hl
    · rw [Function.update_of_ne hu]
      exact hlinks u hu

theorem Stacks.push (h : Stacks s live) (hi : ∀ u, i ∉ live u) (arg : List UInt8) (esp ebp : Nat) :
    Stacks (s.launch t i arg esp ebp) (Function.update live t (i :: live t)) := by
  -- the slot is in no stack, so the old links are as they were
  have hlinks : ∀ u, (live u).IsChain
      fun a b => ((s.launch t i arg esp ebp).pcb a).parentPcb = some b := by
    intro u
    apply (h.links u).imp_of_mem_imp
    intro a b ha _ hab
    have hai : a ≠ i := fun hai => hi u (hai ▸ ha)
    rw [Proc.launch_pcb_ne hai]
    exact hab
  apply h.update
  · exact Proc.launch_active
  · intro u hu
    exact Proc.launch_active_ne hu
  · rw [List.isChain_cons]
    refine ⟨?_, hlinks t⟩
    intro b hb
    rw [Proc.launch_pcb]
    exact Proc.newPcb_parent_child ((h.active t).trans hb)
  · intro u _
    exact hlinks u

theorem Stacks.pop {rest : List (Fin 8)} (h : Stacks s live) (hl : live t = a :: p :: rest)
    (status : UInt8) :
    Stacks ((s.closeAll a status).release t a p) (Function.update live t (p :: rest)) := by
  have hlinks : ∀ l : List (Fin 8), l.IsChain (fun a b => (s.pcb a).parentPcb = some b) →
      l.IsChain fun b c => (((s.closeAll a status).release t a p).pcb b).parentPcb = some c := by
    intro l hc
    apply hc.imp
    intro b c hbc
    simpa using hbc
  have hc := h.links t
  rw [hl] at hc
  apply h.update
  · exact Proc.release_active
  · intro u hu
    rw [Proc.release_active_ne hu]
    rfl
  · exact hlinks _ hc.tail
  · intro u _
    exact hlinks _ (h.links u)

theorem Stacks.drop (h : Stacks s live) (status : UInt8) :
    Stacks ((s.closeAll a status).releaseRoot t) (Function.update live t []) := by
  have hp : ∀ b, (((s.closeAll a status).releaseRoot t).pcb b).parentPcb = (s.pcb b).parentPcb := by
    intro b
    simp [Proc.releaseRoot]
  apply h.update
  · exact Proc.releaseRoot_active
  · intro u hu
    rw [Proc.releaseRoot_active_ne hu]
    rfl
  · exact .nil
  · intro u _
    apply (h.links u).imp
    intro b c hbc
    exact (hp b).trans hbc

theorem Stacks.restart (h : Stacks s live) (hi : ∀ u, u ≠ t → i ∉ live u) (status : UInt8)
    (esp ebp : Nat) :
    Stacks (((s.closeAll a status).releaseRoot t).launch t i [] esp ebp)
      (Function.update live t [i]) := by
  have hfresh : ∀ u, i ∉ Function.update live t [] u := by
    intro u
    by_cases hu : u = t
    · subst hu; simp
    · rw [Function.update_of_ne hu]; exact hi u hu
  have hp := (h.drop (t := t) (a := a) status).push (t := t) hfresh [] esp ebp
  simpa using hp

theorem Stacks.parent (h : Stacks s live) {l : List (Fin 8)} (hl : live t = a :: p :: l) :
    (s.pcb a).parentPcb = some p := by
  have hch := h.links t
  rw [hl, List.isChain_cons_cons] at hch
  exact hch.1

/-! ## Moves -/

/-- How a step moves the table and the record. -/
inductive Move (k : Kernel) (live : Live) : Event → Proc → Live → Prop where
  | stay {e : Event} {s' : Proc} (h : Agrees k.proc s') : Move k live e s' live
  | push {e : Event} {s : Proc} {t : Int} {i : Fin 8} {arg : List UInt8} {esp ebp : Nat}
      (h : Agrees k.proc s) (hi : k.proc.freePid = some i) (ht : 0 ≤ t ∧ t ≤ 2)
      (hroot : live t = [] → ∃ esp ebp env, e = .tick esp ebp env ∧ (k.ticked esp ebp).active = none) :
      Move k live e (s.launch t i arg esp ebp) (Function.update live t (i :: live t))
  | pop {l : List (Fin 8)} {a p : Fin 8} {status : UInt8} {env : ExecEnv}
      (hl : live k.terminalNum = a :: l) (hp : (k.proc.pcb a).parentPcb = some p) :
      Move k live (.halt status env) ((k.proc.closeAll a status).release k.terminalNum a p)
        (Function.update live k.terminalNum l)
  | restart {l : List (Fin 8)} {a i : Fin 8} {status : UInt8} {env : ExecEnv} {esp ebp : Nat}
      (hl : live k.terminalNum = a :: l) (hp : (k.proc.pcb a).parentPcb = none)
      (hi : (k.haltedRoot a status).freePid = some i) :
      Move k live (.halt status env)
        ((k.haltedRoot a status).launch k.terminalNum i [] esp ebp)
        (Function.update live k.terminalNum (i :: l))

/-- The stacks of a reachable state, as far as they do not depend on how root shells
came and went: no process before the first tick and none outside the array. -/
structure Frame (k : Kernel) (live : Live) : Prop where
  range : -1 ≤ k.terminalNum ∧ k.terminalNum ≤ 2
  idle : k.terminalNum = -1 → ∀ t, live t = []
  outside : ∀ t, ¬ (0 ≤ t ∧ t ≤ 2) → live t = []

theorem Frame.unstarted (hf : Frame k live) (h : Stacks k.proc live) (hn : k.terminalNum = -1) (t : Int) :
    k.proc.active t = none := by
  rw [h.active, hf.idle hn t]
  rfl

theorem account_returned {v : Int} {data : List UInt8} (he : e.isHalt = false) :
    account k e (.returned v data) k' live = live := by simp [account, he]

theorem account_entered {entry : Nat} (he : e.isHalt = false) (ha : k'.active = some i) :
    account k e (.entered entry) k' live =
      Function.update live k'.terminalNum (i :: live k'.terminalNum) := by
  simp [account, he, ha]

theorem account_resumed {l : List (Fin 8)} {status : UInt8} {env : ExecEnv} {esp ebp v : Nat}
    (hl : live k.terminalNum = a :: l) :
    account k (.halt status env) (.resumed esp ebp v) k' live =
      Function.update live k.terminalNum l := by
  simp [account, Event.isHalt, hl]

theorem account_restarted {l : List (Fin 8)} {status : UInt8} {env : ExecEnv} {entry : Nat}
    (hl : live k.terminalNum = a :: l) (ht : k'.terminalNum = k.terminalNum)
    (ha : k'.active = some i) :
    account k (.halt status env) (.entered entry) k' live =
      Function.update live k.terminalNum (i :: l) := by
  simp [account, Event.isHalt, hl, ht, ha]

theorem Frame.running (hf : Frame k live) (h : Stacks k.proc live) (ha : k.active = some a) :
    (0 ≤ k.terminalNum ∧ k.terminalNum ≤ 2) ∧ ∃ l, live k.terminalNum = a :: l := by
  have hl : (live k.terminalNum).head? = some a := (h.active _).symm.trans ha
  constructor
  · by_contra hn
    rw [hf.outside _ hn] at hl; cases hl
  · cases hc : live k.terminalNum with
    | nil => rw [hc] at hl; cases hl
    | cons b l => rw [hc] at hl; obtain rfl := Option.some.inj hl; exact ⟨l, rfl⟩

theorem step_move (hf : Frame k live) (h : Stacks k.proc live) (hs : k.step fs e = some (o, k')) :
    Move k live e k'.proc (account k e o k' live) := by
  have hrange := hf.range
  cases Kernel.step_cases hs with
  | quiet hh hq =>
    have he : e.isHalt = false := by
      cases e with
      | halt status env => exact absurd rfl (hh status env)
      | _ => rfl
    obtain ⟨v, data, rfl⟩ := hq.returned
    rw [account_returned he]
    exact .stay hq.calm.1.agrees
  | @child _ a i _ _ _ _ ha hi hp hm ht =>
    obtain ⟨hr, l, hl⟩ := hf.running h ha
    have hact : k'.active = some i := Kernel.active_launched hp ht
    rw [account_entered rfl hact, ht, hp]
    exact .push (Calm.refl _).agrees hi hr fun hn => by rw [hl] at hn; cases hn
  | @release _ a p _ _ ha hpar hp hm ht =>
    obtain ⟨-, l, hl⟩ := hf.running h ha
    rw [account_resumed hl, hp]
    exact .pop hl hpar
  | @restart _ a i _ _ _ ha hpar hi hp hm ht =>
    obtain ⟨-, l, hl⟩ := hf.running h ha
    have hact : k'.active = some i := Kernel.active_launched hp ht
    rw [account_restarted hl ht hact, hp]
    exact .restart hl hpar hi
  | @first _ i esp ebp _ _ ha hi hp hm ht =>
    have hact : k'.active = some i := Kernel.active_launched hp ht
    have hag := (readied_calm (hf.unstarted h) esp ebp).agrees
    rw [account_entered rfl hact, ht, hp]
    exact .push hag (by rw [← hag.freePid]; exact hi) (by omega) fun _ => ⟨_, _, _, rfl, ha⟩
  | switch ha hp hm ht =>
    rw [hp]
    exact .stay (switchTo_calm (hf.unstarted h) ..).agrees

theorem step_terminalNum (hs : k.step fs e = some (o, k')) :
    k'.terminalNum = (k.terminalNum + 1) % 3 ∨
      k'.terminalNum = k.terminalNum ∧ ∀ esp ebp env, e ≠ .tick esp ebp env := by
  cases Kernel.step_cases hs with
  | quiet hh hq =>
    exact .inr ⟨hq.terminalNum, hq.not_tick hs⟩
  | child ha hi hp hm ht => exact .inr ⟨ht, nofun⟩
  | release ha hpar hp hm ht => exact .inr ⟨ht, nofun⟩
  | restart ha hpar hi hp hm ht => exact .inr ⟨ht, nofun⟩
  | first ha hi hp hm ht => exact .inl ht
  | switch ha hp hm ht => exact .inl ht

theorem frame_step (hf : Frame k live) (h : Stacks k.proc live) (hs : k.step fs e = some (o, k')) :
    Frame k' (account k e o k' live) := by
  have hrange := hf.range
  have hnum := step_terminalNum hs
  have hm := step_move hf h hs
  generalize account k e o k' live = live', k'.proc = s' at hm
  have htop : ∀ {a l}, live k.terminalNum = a :: l → 0 ≤ k.terminalNum ∧ k.terminalNum ≤ 2 := by
    intro a l hl
    by_contra hn
    rw [hf.outside _ hn] at hl; cases hl
  have hout : ∀ {u : Int} {l : List (Fin 8)}, 0 ≤ u ∧ u ≤ 2 → ∀ t, ¬ (0 ≤ t ∧ t ≤ 2) →
      Function.update live u l t = [] := by
    intro u l hu t ht
    have hne : t ≠ u := fun he => ht (he ▸ hu)
    rw [Function.update_of_ne hne]
    exact hf.outside t ht
  refine ⟨by omega, fun hn => ?_, ?_⟩
  · -- before the first tick nothing moves
    obtain ⟨hk, hno⟩ : k'.terminalNum = k.terminalNum ∧ ∀ esp ebp env, e ≠ .tick esp ebp env := by
      rcases hnum with hk | hk
      · omega
      · exact hk
    have hidle := hf.idle (by omega)
    cases hm with
    | stay _ => exact hidle
    | push _ _ _ hroot =>
      obtain ⟨esp, ebp, env, he, -⟩ := hroot (hidle _)
      exact absurd he (hno esp ebp env)
    | pop hl _ => rw [hidle] at hl; cases hl
    | restart hl _ _ => rw [hidle] at hl; cases hl
  · cases hm with
    | stay _ => exact hf.outside
    | push _ _ ht _ => exact hout ht
    | pop hl _ => exact hout (htop hl)
    | restart hl _ _ => exact hout (htop hl)

theorem frame_boot (p : Paging) (mem : Bytes.Memory) : Frame (Kernel.boot p mem) fun _ => [] where
  range := by simp [Kernel.boot]
  idle := fun _ _ => rfl
  outside := fun _ _ => rfl

theorem stacks_boot (p : Paging) (mem : Bytes.Memory) :
    Stacks (Kernel.boot p mem).proc fun _ => [] where
  active := fun _ => rfl
  links := fun _ => .nil

/-! ## Who holds a pid -/

/-- The record and `pid_array` agree, and pid 0 is a root shell's: it is the first to be
taken, and below nobody. -/
structure Holders (s : Proc) (live : Live) : Prop where
  nodup : ∀ t, (live t).Nodup
  apart : ∀ t u q, q ∈ live t → q ∈ live u → t = u
  reserved : ∀ q, s.pidArray q = 1 ↔ ∃ t, q ∈ live t
  pid : ∀ t q, q ∈ live t → (s.pcb q).pid = q
  zero : (∃ t q, q ∈ live t) → s.pidArray 0 = 1
  bottom : ∀ t, 0 ∈ live t → (live t).getLast? = some 0
  orphan : (s.pcb 0).parentPcb = none

theorem Holders.agrees (h : Holders s live) (hs : Agrees s s') : Holders s' live where
  nodup := h.nodup
  apart := h.apart
  reserved := by rw [hs.pidArray]; exact h.reserved
  pid := fun t q hq => (hs.pid q).trans (h.pid t q hq)
  zero := by rw [hs.pidArray]; exact h.zero
  bottom := h.bottom
  orphan := (hs.parent 0).trans h.orphan

theorem Holders.fresh (h : Holders s live) (hi : s.freePid = some i) (t : Int) : i ∉ live t :=
  fun hm => Proc.freePid_free hi ((h.reserved i).mpr ⟨t, hm⟩)

/-- Pid 0, the first one the scan tries, is handed out only when nobody lives. -/
theorem Holders.nobody (h : Holders s live) (hi : s.freePid = some 0) (t : Int) : live t = [] := by
  by_contra hne
  obtain ⟨q, hq⟩ := List.exists_mem_of_ne_nil _ hne
  exact Proc.freePid_free hi (h.zero ⟨t, q, hq⟩)

theorem Holders.push (h : Holders s live) (hst : Stacks s live) (hi : s.freePid = some i)
    (arg : List UInt8) (esp ebp : Nat) :
    Holders (s.launch t i arg esp ebp) (Function.update live t (i :: live t)) := by
  have hfresh := h.fresh hi
  have hmem : ∀ u q, q ∈ Function.update live t (i :: live t) u ↔ q ∈ live u ∨ u = t ∧ q = i := by
    intro u q
    by_cases hu : u = t
    · subst hu; simp [or_comm]
    · simp [hu]
  refine ⟨fun u => ?_, fun u v q hq hv => ?_, fun q => ?_, fun u q hq => ?_, fun _ => ?_,
    fun u hu => ?_, ?_⟩
  · by_cases hu : u = t
    · subst hu
      rw [Function.update_self]
      exact List.nodup_cons.mpr ⟨hfresh u, h.nodup u⟩
    · rw [Function.update_of_ne hu]; exact h.nodup u
  · rcases (hmem u q).mp hq with hq | ⟨hut, hqi⟩
    · rcases (hmem v q).mp hv with hv | ⟨-, hqi⟩
      · exact h.apart u v q hq hv
      · exact absurd (hqi ▸ hq) (hfresh u)
    · rcases (hmem v q).mp hv with hv | ⟨hvt, -⟩
      · exact absurd (hqi ▸ hv) (hfresh v)
      · rw [hut, hvt]
  · by_cases hq : q = i
    · subst hq
      simp only [Proc.launch, Function.update_self, true_iff]
      exact ⟨t, (hmem t q).mpr (.inr ⟨rfl, rfl⟩)⟩
    · simp only [Proc.launch, Function.update_of_ne hq, h.reserved]
      simp [hmem, hq]
  · rcases (hmem u q).mp hq with hq | ⟨-, rfl⟩
    · have hne : q ≠ i := fun he => hfresh u (he ▸ hq)
      rw [Proc.launch_pcb_ne hne]
      exact h.pid u q hq
    · rw [Proc.launch_pcb]; rfl
  · by_cases hz : (0 : Fin 8) = i
    · subst hz; simp [Proc.launch]
    · rw [Proc.launch]
      simp only [Function.update_of_ne hz]
      by_contra hne
      -- pid 0 is the first one the scan tries
      exact hz (Option.some.inj ((Proc.freePid_zero hne).symm.trans hi))
  · by_cases hut : u = t
    · subst hut
      rw [Function.update_self] at hu ⊢
      rcases List.mem_cons.mp hu with rfl | hu
      · rw [h.nobody hi u]
        rfl
      · rw [List.getLast?_cons_of_ne_nil (List.ne_nil_of_mem hu)]
        exact h.bottom u hu
    · rw [Function.update_of_ne hut] at hu ⊢
      exact h.bottom u hu
  · by_cases hz : (0 : Fin 8) = i
    · subst hz
      -- so it goes to a root shell, which keeps the slot's parent
      have hnone : s.active t = none := by
        rw [hst.active, h.nobody hi t]
        rfl
      rw [Proc.launch_pcb, Proc.newPcb_parent_root hnone]
      exact h.orphan
    · rw [Proc.launch_pcb_ne hz]; exact h.orphan

theorem Holders.pop {rest : List (Fin 8)} (h : Holders s live) (hl : live t = a :: p :: rest)
    (status : UInt8) :
    Holders ((s.closeAll a status).release t a p) (Function.update live t (p :: rest)) := by
  have hnd := h.nodup t
  rw [hl] at hnd
  have hsub : ∀ u q, q ∈ Function.update live t (p :: rest) u ↔ q ∈ live u ∧ q ≠ a := by
    intro u q
    by_cases hu : u = t
    · subst hu
      rw [Function.update_self, hl]
      constructor
      · intro hq
        exact ⟨.tail _ hq, fun hqa => (List.nodup_cons.mp hnd).1 (hqa ▸ hq)⟩
      · intro hqa
        obtain ⟨hq, hne⟩ := hqa
        exact (List.mem_cons.mp hq).resolve_left hne
    · rw [Function.update_of_ne hu]
      refine ⟨fun hq => ⟨hq, ?_⟩, fun hq => hq.1⟩
      intro hqa
      subst hqa
      exact hu (h.apart u t q hq (by rw [hl]; simp))
  have hpid : (s.pcb a).pid = a := h.pid t a (by rw [hl]; simp)
  -- pid 0 is at the bottom of its stack, and `a` is not
  have h0 : a ≠ 0 := by
    intro ha
    subst ha
    have hb := h.bottom t (by rw [hl]; simp)
    rw [hl, List.getLast?_cons_of_ne_nil (by simp)] at hb
    exact (List.nodup_cons.mp hnd).1 (List.mem_of_getLast? hb)
  have harr : ((s.closeAll a status).release t a p).pidArray = Function.update s.pidArray a 0 := by
    simp only [Proc.release, Proc.closeAll_pid, hpid]
    rfl
  refine ⟨fun u => ?_, fun u v q hq hv => ?_, fun q => ?_, fun u q hq => ?_, ?_, fun u hu => ?_, ?_⟩
  · by_cases hu : u = t
    · subst hu; rw [Function.update_self]; exact (List.nodup_cons.mp hnd).2
    · rw [Function.update_of_ne hu]; exact h.nodup u
  · exact h.apart u v q ((hsub u q).mp hq).1 ((hsub v q).mp hv).1
  · rw [harr]
    by_cases hq : q = a
    · subst hq; simp [hsub]
    · rw [Function.update_of_ne hq, h.reserved]
      simp [hsub, hq]
  · simpa using h.pid u q ((hsub u q).mp hq).1
  · intro hlive
    obtain ⟨u, q, hq⟩ := hlive
    rw [harr, Function.update_of_ne h0.symm]
    exact h.zero ⟨u, q, ((hsub u q).mp hq).1⟩
  · have hb := h.bottom u ((hsub u 0).mp hu).1
    by_cases hut : u = t
    · subst hut
      rw [hl, List.getLast?_cons_of_ne_nil (by simp)] at hb
      rw [Function.update_self]
      exact hb
    · rw [Function.update_of_ne hut]; exact hb
  · simpa using h.orphan

theorem Holders.restart (h : Holders s live) (hl : live t = [0])
    (status : UInt8) (hi : ((s.closeAll 0 status).releaseRoot t).freePid = some i) (esp ebp : Nat) :
    i = 0 ∧ Holders (((s.closeAll 0 status).releaseRoot t).launch t i [] esp ebp) live := by
  have hi0 : i = 0 := by
    have := Proc.freePid_zero (s := (s.closeAll 0 status).releaseRoot t) (by simp [Proc.releaseRoot])
    exact Option.some.inj (hi.symm.trans this)
  subst hi0
  have hmem : (0 : Fin 8) ∈ live t := by rw [hl]; simp
  refine ⟨rfl, h.nodup, h.apart, fun q => ?_, fun u q hq => ?_, fun _ => ?_, h.bottom, ?_⟩
  · by_cases hq : q = 0
    · subst hq
      simp only [Proc.launch, Function.update_self, true_iff]
      exact ⟨t, hmem⟩
    · simp only [Proc.launch, Proc.releaseRoot, Function.update_of_ne hq]
      exact h.reserved q
  · by_cases hq0 : q = 0
    · subst hq0; rw [Proc.launch_pcb]; rfl
    · rw [Proc.launch_pcb_ne hq0]
      simpa [Proc.releaseRoot] using h.pid u q hq
  · simp [Proc.launch]
  · rw [Proc.launch_pcb, Proc.newPcb_parent_root (by simp)]
    simpa [Proc.releaseRoot] using h.orphan

/-- No root shell other than pid 0 halts. -/
def RootIsZero (q : Kernel × Live) (e : Event) : Prop :=
  e.isHalt = true → ∀ a, q.2 q.1.terminalNum = [a] → a = 0

/-- What holds in every state of a run in which only pid 0's root shell halts. -/
structure TableOk (q : Kernel × Live) : Prop where
  frame : Frame q.1 q.2
  linked : Stacks q.1.proc q.2
  holders : Holders q.1.proc q.2

theorem tableOk_step {q : Kernel × Live} {r : Outcome × (Kernel × Live)} (h : TableOk q)
    (hG : RootIsZero q e) (hs : stepLive fs q e = some r) : TableOk r.2 := by
  obtain ⟨k, live⟩ := q
  obtain ⟨o, q'⟩ := r
  obtain ⟨k', hk, rfl⟩ := ghost_eq_some.mp hs
  obtain ⟨hf, hst, hh⟩ := h
  dsimp only at hf hst hh
  have hm := step_move hf hst hk
  suffices hsuff : Stacks k'.proc (account k e o k' live) ∧ Holders k'.proc (account k e o k' live) from
    ⟨frame_step hf hst hk, hsuff.1, hsuff.2⟩
  generalize account k e o k' live = live', k'.proc = s' at hm
  cases hm with
  | stay hag => exact ⟨hst.agrees hag, hh.agrees hag⟩
  | push hag hi ht hroot =>
    rw [← hag.freePid] at hi
    exact ⟨(hst.agrees hag).push ((hh.agrees hag).fresh hi) _ _ _,
      (hh.agrees hag).push (hst.agrees hag) hi _ _ _⟩
  | @pop l a p status env hl hp =>
    cases l with
    | nil =>
      -- a root shell: its pid is 0, and pid 0 has no parent
      obtain rfl : a = 0 := hG rfl a hl
      rw [hh.orphan] at hp; cases hp
    | cons b l =>
      obtain rfl : b = p := Option.some.inj ((hst.parent hl).symm.trans hp)
      exact ⟨hst.pop hl status, hh.pop hl status⟩
  | @restart l a i status env esp ebp hl hp hi =>
    cases l with
    | cons b l => rw [hst.parent hl] at hp; cases hp
    | nil =>
      obtain rfl : a = 0 := hG rfl a hl
      obtain ⟨rfl, hh'⟩ := hh.restart hl status hi esp ebp
      have hlive : Function.update live k.terminalNum [0] = live := by
        rw [← hl]; exact Function.update_eq_self ..
      have hne : ∀ u, u ≠ k.terminalNum → 0 ∉ live u :=
        fun u hu hm => hu (hh.apart u _ 0 hm (by rw [hl]; simp))
      refine ⟨hst.restart hne status esp ebp, ?_⟩
      rw [hlive]; exact hh'

theorem tableOk_boot (p : Paging) (mem : Bytes.Memory) : TableOk (Kernel.boot p mem, fun _ => []) where
  frame := frame_boot p mem
  linked := stacks_boot p mem
  holders :=
    { nodup := fun _ => .nil
      apart := nofun
      reserved := fun _ => ⟨nofun, nofun⟩
      pid := nofun
      zero := nofun
      bottom := nofun
      orphan := rfl }

theorem mem_all (hf : Frame k live) (q : Fin 8) : q ∈ live.all ↔ ∃ t, q ∈ live t := by
  simp only [Live.all, List.mem_append]
  constructor
  · intro hmem
    rcases hmem with (h | h) | h
    · exact ⟨0, h⟩
    · exact ⟨1, h⟩
    · exact ⟨2, h⟩
  · intro hmem
    obtain ⟨t, ht⟩ := hmem
    have hr : 0 ≤ t ∧ t ≤ 2 := by
      by_contra hn
      rw [hf.outside t hn] at ht; cases ht
    obtain rfl | rfl | rfl : t = 0 ∨ t = 1 ∨ t = 2 := by omega
    · exact .inl (.inl ht)
    · exact .inl (.inr ht)
    · exact .inr ht

theorem Holders.nodup_all (h : Holders s live) : live.all.Nodup := by
  have hdis : ∀ {t u : Int}, t ≠ u → List.Disjoint (live t) (live u) :=
    fun htu q hq hu => htu (h.apart _ _ q hq hu)
  refine ((h.nodup 0).append (h.nodup 1) (hdis (by decide))).append (h.nodup 2) ?_
  rw [List.disjoint_append_left]
  exact ⟨hdis (by decide), hdis (by decide)⟩

/-- In every run from boot in which no root shell other than pid 0 halts, a pid is taken
exactly if one live process has it, and no two have the same: none is handed out
while its process lives, none stays taken when it is gone. -/
theorem pid_array_consistent (fs : Fs) (p : Paging) (mem : Bytes.Memory) (es : List Event)
    (k : Kernel) (live : Live)
    (hr : run (stepLive fs) (Kernel.boot p mem, fun _ => []) es = some (k, live))
    (hG : Meets (stepLive fs) RootIsZero (Kernel.boot p mem, fun _ => []) es) :
    ∀ q : Fin 8, (k.proc.pidArray q = 1 ↔ live.all.count q = 1) ∧ live.all.count q ≤ 1 := by
  obtain ⟨hf, -, hh⟩ : TableOk (k, live) := run_invariant tableOk_step (tableOk_boot p mem) hG hr
  dsimp only at hf hh
  intro q
  refine ⟨?_, List.nodup_iff_count_le_one.mp hh.nodup_all q⟩
  rw [hh.reserved, ← mem_all hf]
  constructor
  · exact List.count_eq_one_of_mem hh.nodup_all
  · intro hc
    exact List.count_pos_iff.mp (by omega)

instance (q : Kernel × Live) (e : Event) : Decidable (RootIsZero q e) :=
  inferInstanceAs (Decidable (e.isHalt = true → ∀ a, q.2 q.1.terminalNum = [a] → a = 0))

/-- A child of the first shell halts, then the shell itself, and a second shell starts. -/
theorem pid_array_consistent_restart :
    let es := [.tick 0 0 zeroEnv, .execute (some (ascii "shell")) zeroEnv, .halt 0 zeroEnv,
      .halt 7 zeroEnv, .tick 0 0 zeroEnv]
    ∃ k live, run (stepLive smallFs) (Kernel.boot linkedPaging fun _ => 0, fun _ => []) es =
        some (k, live) ∧ live.all = [0, 1] ∧ k.proc.pidArray 0 = 1 ∧ k.proc.pidArray 1 = 1 ∧
      k.proc.pidArray 2 ≠ 1 := by
  intro es
  have hrun : ((run (stepLive smallFs) (Kernel.boot linkedPaging fun _ => 0, fun _ => []) es).map
      fun q => q.2.all) = some [0, 1] := by decide +kernel
  obtain ⟨⟨k, live⟩, hr, hall⟩ := Option.map_eq_some_iff.mp hrun
  dsimp only at hall
  have h := pid_array_consistent smallFs linkedPaging (fun _ => 0) es k live hr (by decide +kernel)
  refine ⟨k, live, hr, hall, (h 0).1.mpr ?_, (h 1).1.mpr ?_, fun h2 => ?_⟩
  · rw [hall]; decide
  · rw [hall]; decide
  · have := (h 2).1.mp h2
    rw [hall] at this
    exact absurd this (by decide)

/-- The shell of the second terminal halts: pid 0 is freed under the first terminal's
shell and given out again, and pid 1 stays taken by nobody. -/
theorem pid_array_leaks :
    ∃ k live, run (stepLive smallFs) (Kernel.boot linkedPaging fun _ => 0, fun _ => [])
        [.tick 0 0 zeroEnv, .tick 0 0 zeroEnv, .halt 0 zeroEnv] = some (k, live) ∧
      (k.proc.pidArray 0 = 1 ∧ live.all.count 0 = 2) ∧
      (k.proc.pidArray 1 = 1 ∧ live.all.count 1 = 0) := by
  have hrun : ((run (stepLive smallFs) (Kernel.boot linkedPaging fun _ => 0, fun _ => [])
      [.tick 0 0 zeroEnv, .tick 0 0 zeroEnv, .halt 0 zeroEnv]).map fun q =>
        (q.1.proc.pidArray 0, q.2.all.count 0, q.1.proc.pidArray 1, q.2.all.count 1)) =
      some (1, 2, 1, 0) := by decide +kernel
  obtain ⟨⟨k, live⟩, hr, hq⟩ := Option.map_eq_some_iff.mp hrun
  simp only [Prod.mk.injEq] at hq
  exact ⟨k, live, hr, ⟨hq.1, hq.2.1⟩, hq.2.2⟩

/-! ## Who returns to whom -/

/-- The processes met on the way up from `a`, at most `n` of them. -/
def Proc.ancestors (s : Proc) : Nat → Option (Fin 8) → List (Fin 8)
  | 0, _ => []
  | _ + 1, none => []
  | n + 1, some a => a :: s.ancestors n (s.pcb a).parentPcb

/-- A chain of parents that ends with `NULL` is met as a whole, and nothing after it. -/
theorem ancestors_chain (s : Proc) : ∀ l : List (Fin 8),
    l.IsChain (fun a b => (s.pcb a).parentPcb = some b) →
    (∀ r, l.getLast? = some r → (s.pcb r).parentPcb = none) →
    ∀ n, l.length ≤ n → s.ancestors n l.head? = l
  | [], _, _, n, _ => by cases n <;> rfl
  | [a], _, hr, n + 1, _ => by
    rw [List.head?_cons, Proc.ancestors, hr a rfl]
    cases n <;> rfl
  | a :: b :: l, hc, hr, n + 1, hn => by
    rw [List.isChain_cons_cons] at hc
    have ih := ancestors_chain s (b :: l) hc.2 (fun r h => hr r (by rwa [List.getLast?_cons_cons])) n
      (by simpa using hn)
    rw [List.head?_cons, Proc.ancestors, hc.1]
    exact congrArg (a :: ·) ih

/-- The live processes have pairwise distinct pids. -/
def Distinct (q : Kernel × Live) : Prop := q.2.all.Nodup

/-- A root shell that is started gets a slot without a parent: by a tick the first free
one, by the restart in `halt` slot 0, which `halt` has just freed. -/
def RootSlotClear (q : Kernel × Live) : Event → Prop
  | .tick esp ebp _ => (q.1.ticked esp ebp).active = none →
      ∀ i, q.1.proc.freePid = some i → (q.1.proc.pcb i).parentPcb = none
  | .halt _ _ => ∀ a, q.1.active = some a → (q.1.proc.pcb a).parentPcb = none →
      (q.1.proc.pcb 0).parentPcb = none
  | _ => True

/-- What holds in every state of a run whose root shells start in clear slots. -/
structure ChainOk (q : Kernel × Live) : Prop where
  frame : Frame q.1 q.2
  linked : Stacks q.1.proc q.2
  rooted : ∀ t r, (q.2 t).getLast? = some r → (q.1.proc.pcb r).parentPcb = none

theorem fresh_of_nodup {l : List (Fin 8)} (hf : Frame k live) (ht : 0 ≤ t ∧ t ≤ 2)
    (hd : (Live.all (Function.update live t (i :: l))).Nodup) :
    i ∉ l ∧ ∀ u, u ≠ t → i ∉ live u := by
  have hout : ∀ u, ¬ (0 ≤ u ∧ u ≤ 2) → i ∉ live u := by
    intro u hu hm
    rw [hf.outside u hu] at hm; cases hm
  have hsplit : ∀ u : Int, u = 0 ∨ u = 1 ∨ u = 2 ∨ ¬ (0 ≤ u ∧ u ≤ 2) := by intro u; omega
  obtain rfl | rfl | rfl : t = 0 ∨ t = 1 ∨ t = 2 := by omega
  · have hi : i ∉ l ++ (live 1 ++ live 2) := (List.nodup_cons.mp (by simpa [Live.all] using hd)).1
    simp only [List.mem_append, not_or] at hi
    refine ⟨hi.1, fun u hu => ?_⟩
    rcases hsplit u with rfl | rfl | rfl | h
    · exact absurd rfl hu
    · exact hi.2.1
    · exact hi.2.2
    · exact hout u h
  · have hi : i ∉ live 0 ++ (l ++ live 2) :=
      (List.nodup_middle.mp (by simpa [Live.all] using hd)).notMem
    simp only [List.mem_append, not_or] at hi
    refine ⟨hi.2.1, fun u hu => ?_⟩
    rcases hsplit u with rfl | rfl | rfl | h
    · exact hi.1
    · exact absurd rfl hu
    · exact hi.2.2
    · exact hout u h
  · have hi : i ∉ (live 0 ++ live 1) ++ l :=
      (List.nodup_middle.mp (by simpa [Live.all] using hd)).notMem
    simp only [List.mem_append, not_or] at hi
    refine ⟨hi.2, fun u hu => ?_⟩
    rcases hsplit u with rfl | rfl | rfl | h
    · exact hi.1.1
    · exact hi.1.2
    · exact absurd rfl hu
    · exact hout u h

theorem rooted_push (live : Live)
    (hroot : ∀ u r, (live u).getLast? = some r → (s.pcb r).parentPcb = none)
    (hi : ∀ u, i ∉ live u) (hslot : live t = [] → s.active t = none ∧ (s.pcb i).parentPcb = none)
    (arg : List UInt8) (esp ebp : Nat) (u : Int) (r : Fin 8)
    (hr : (Function.update live t (i :: live t) u).getLast? = some r) :
    ((s.launch t i arg esp ebp).pcb r).parentPcb = none := by
  have hold : ∀ v, (live v).getLast? = some r → ((s.launch t i arg esp ebp).pcb r).parentPcb = none := by
    intro v hv
    have hne : r ≠ i := fun he => hi v (he ▸ List.mem_of_getLast? hv)
    rw [Proc.launch_pcb_ne hne]
    exact hroot v r hv
  by_cases hu : u = t
  · subst hu
    rw [Function.update_self] at hr
    cases hl : live u with
    | nil =>
      obtain ⟨hact, hpar⟩ := hslot hl
      rw [hl] at hr
      obtain rfl : i = r := Option.some.inj hr
      rw [Proc.launch_pcb, Proc.newPcb_parent_root hact, hpar]
    | cons b l =>
      rw [hl, List.getLast?_cons_cons, ← hl] at hr
      exact hold u hr
  · rw [Function.update_of_ne hu] at hr
    exact hold u hr

theorem chainOk_step {q : Kernel × Live} {r : Outcome × (Kernel × Live)} (h : ChainOk q)
    (hG : (Distinct q ∧ ∀ r, stepLive fs q e = some r → Distinct r.2) ∧ RootSlotClear q e)
    (hs : stepLive fs q e = some r) : ChainOk r.2 := by
  have hd := hG.1.2 r hs
  obtain ⟨k, live⟩ := q
  obtain ⟨o, q'⟩ := r
  obtain ⟨k', hk, rfl⟩ := ghost_eq_some.mp hs
  obtain ⟨hf, hst, hroot⟩ := h
  dsimp only [Distinct] at hf hst hroot hd
  have hclear := hG.2
  have hm := step_move hf hst hk
  suffices hsuff : Stacks k'.proc (account k e o k' live) ∧
      ∀ t r, (account k e o k' live t).getLast? = some r → (k'.proc.pcb r).parentPcb = none from
    ⟨frame_step hf hst hk, hsuff.1, hsuff.2⟩
  generalize account k e o k' live = live', k'.proc = s' at hm hd
  cases hm with
  | stay hag => exact ⟨hst.agrees hag, fun t r hr => (hag.parent r).trans (hroot t r hr)⟩
  | @push e s t i arg esp ebp hag hi ht hrt =>
    obtain ⟨hself, hother⟩ := fresh_of_nodup hf ht hd
    have hi' : ∀ u, i ∉ live u := by
      intro u
      by_cases hu : u = t
      · subst hu; exact hself
      · exact hother u hu
    have hst' := hst.agrees hag
    refine ⟨hst'.push hi' arg esp ebp, rooted_push live ?_ hi' ?_ arg esp ebp⟩
    · exact fun u r hr => (hag.parent r).trans (hroot u r hr)
    · intro hnil
      obtain ⟨esp', ebp', env, rfl, hact⟩ := hrt hnil
      exact ⟨by rw [hst'.active, hnil]; rfl, (hag.parent i).trans (hclear hact i hi)⟩
  | @pop l a p status env hl hp =>
    cases l with
    | nil =>
      -- the bottom of a stack has no parent
      rw [hroot k.terminalNum a (by rw [hl]; rfl)] at hp; cases hp
    | cons b l =>
      obtain rfl : b = p := Option.some.inj ((hst.parent hl).symm.trans hp)
      refine ⟨hst.pop hl status, fun t r hr => ?_⟩
      rw [Proc.release_parent, Proc.closeAll_parent]
      by_cases ht : t = k.terminalNum
      · subst ht
        rw [Function.update_self] at hr
        exact hroot _ r (by rw [hl, List.getLast?_cons_cons]; exact hr)
      · rw [Function.update_of_ne ht] at hr
        exact hroot t r hr
  | @restart l a i status env esp ebp hl hp hi =>
    cases l with
    | cons b l => rw [hst.parent hl] at hp; cases hp
    | nil =>
      have hact : k.active = some a := by rw [Kernel.active, hst.active, hl]; rfl
      have ht : 0 ≤ k.terminalNum ∧ k.terminalNum ≤ 2 := (hf.running hst hact).1
      obtain rfl : 0 = i := Option.some.inj (Kernel.haltedRoot_freePid.symm.trans hi)
      have hother := (fresh_of_nodup hf ht hd).2
      refine ⟨hst.restart hother status esp ebp, ?_⟩
      have hpar : ∀ b, ((k.haltedRoot a status).pcb b).parentPcb = (k.proc.pcb b).parentPcb :=
        fun b => by simp [Kernel.haltedRoot, Proc.releaseRoot]
      have hpush := rooted_push (s := k.haltedRoot a status) (t := k.terminalNum) (i := 0)
        (Function.update live k.terminalNum []) ?_ ?_ ?_ [] esp ebp
      · simpa using hpush
      · intro u r hr
        by_cases hu : u = k.terminalNum
        · subst hu; simp at hr
        · rw [Function.update_of_ne hu] at hr
          exact (hpar r).trans (hroot u r hr)
      · intro u
        by_cases hu : u = k.terminalNum
        · subst hu; simp
        · rw [Function.update_of_ne hu]; exact hother u hu
      · exact fun _ => ⟨Proc.releaseRoot_active, (hpar 0).trans (hclear a hact hp)⟩

theorem chainOk_boot (p : Paging) (mem : Bytes.Memory) : ChainOk (Kernel.boot p mem, fun _ => []) where
  frame := frame_boot p mem
  linked := stacks_boot p mem
  rooted := nofun

/-- How `halt` ends, given the stacks: the restart for the last process of a terminal,
and otherwise a return to the process below. -/
theorem ChainOk.halt (h : ChainOk (k, live)) {status : UInt8} {env : ExecEnv}
    (hs : k.step fs (.halt status env) = some (o, k')) :
    ∃ a l, live k.terminalNum = a :: l ∧ k.active = some a ∧
      ((∃ entry, o = .entered entry) ↔ l = []) ∧
      (∀ b l', l = b :: l' → k'.terminalNum = k.terminalNum ∧ k'.active = some b) := by
  obtain ⟨hf, hst, hroot⟩ := h
  dsimp only at hf hst hroot
  have hbottom : ∀ {a : Fin 8}, live k.terminalNum = [a] → (k.proc.pcb a).parentPcb = none :=
    fun hl => hroot _ _ (by rw [hl]; rfl)
  cases Kernel.step_cases hs with
  | quiet hh _ => exact absurd rfl (hh status env)
  | @release _ a p _ _ ha hpar hp hm ht =>
    obtain ⟨-, l, hl⟩ := hf.running hst ha
    refine ⟨a, l, hl, ha, ⟨?_, ?_⟩, ?_⟩
    · intro hentered
      obtain ⟨entry, he⟩ := hentered
      cases he
    · intro hnil
      subst hnil
      rw [hbottom hl] at hpar; cases hpar
    · intro b l' hcons
      subst hcons
      obtain rfl : b = p := Option.some.inj ((hst.parent hl).symm.trans hpar)
      exact ⟨ht, by rw [Kernel.active, ht, hp]; exact Proc.release_active⟩
  | @restart _ a i _ _ entry ha hpar hi hp hm ht =>
    obtain ⟨-, l, hl⟩ := hf.running hst ha
    have hnil : l = [] := by
      cases l with
      | nil => rfl
      | cons b l => rw [hst.parent hl] at hpar; cases hpar
    subst hnil
    refine ⟨a, [], hl, ha, ⟨fun _ => rfl, fun _ => ⟨entry, rfl⟩⟩, ?_⟩
    intro b l' hcons
    cases hcons

/-- In every run from boot whose live processes always have distinct pids and whose root
shells start in slots without a parent, the parents of a terminal's active process
are its live processes, the latest first, up to the root shell; so `halt` returns to
the process that executed the halting one, and restarts the shell for the root
shell and for no other. -/
theorem parent_chain_is_stack (fs : Fs) (p : Paging) (mem : Bytes.Memory) (es : List Event)
    (k : Kernel) (live : Live)
    (hr : run (stepLive fs) (Kernel.boot p mem, fun _ => []) es = some (k, live))
    (hd : Always (stepLive fs) Distinct (Kernel.boot p mem, fun _ => []) es)
    (hG : Meets (stepLive fs) RootSlotClear (Kernel.boot p mem, fun _ => []) es) :
    (∀ t : Fin 3, ∀ n, (live t.val).length ≤ n →
      k.proc.ancestors n (k.proc.active t.val) = live t.val) ∧
    (∀ status env o k', k.step fs (.halt status env) = some (o, k') →
      ∃ a l, live k.terminalNum = a :: l ∧ k.active = some a ∧
        ((∃ entry, o = .entered entry) ↔ l = []) ∧
        (∀ b l', l = b :: l' → k'.terminalNum = k.terminalNum ∧ k'.active = some b)) := by
  have h : ChainOk (k, live) := run_invariant chainOk_step (chainOk_boot p mem) (hd.meets.and hG) hr
  refine ⟨fun t n hn => ?_, fun status env o k' hs => h.halt hs⟩
  rw [h.linked.active]
  exact ancestors_chain k.proc _ (h.linked.links _) (fun r hr => h.rooted _ r hr) n hn

instance (q : Kernel × Live) : Decidable (Distinct q) := inferInstanceAs (Decidable q.2.all.Nodup)

instance (q : Kernel × Live) : (e : Event) → Decidable (RootSlotClear q e)
  | .tick esp ebp _ => inferInstanceAs (Decidable ((q.1.ticked esp ebp).active = none →
      ∀ i, q.1.proc.freePid = some i → (q.1.proc.pcb i).parentPcb = none))
  | .halt _ _ => inferInstanceAs (Decidable (∀ a, q.1.active = some a →
      (q.1.proc.pcb a).parentPcb = none → (q.1.proc.pcb 0).parentPcb = none))
  | .key _ | .controlL | .altF _ | .rtc | .execute _ _ | .read _ _ _ | .write _ _ _
  | .openFile _ _ | .close _ | .getargs _ _ | .vidmap _ | .store _ _ => .isTrue trivial

/-- Shells in the first two terminals, and two generations of children in the second. -/
theorem parent_chain_is_stack_nested :
    let es := [.tick 0 0 zeroEnv, .tick 0 0 zeroEnv, .execute (some (ascii "shell")) zeroEnv,
      .execute (some (ascii "shell")) zeroEnv]
    ∃ k live, run (stepLive smallFs) (Kernel.boot linkedPaging fun _ => 0, fun _ => []) es =
        some (k, live) ∧ k.proc.ancestors 8 (k.proc.active 1) = [3, 2, 1] := by
  intro es
  have hrun : ((run (stepLive smallFs) (Kernel.boot linkedPaging fun _ => 0, fun _ => []) es).map
      fun q => q.2 1) = some [3, 2, 1] := by decide +kernel
  obtain ⟨⟨k, live⟩, hr, hlive⟩ := Option.map_eq_some_iff.mp hrun
  dsimp only at hlive
  have h := (parent_chain_is_stack smallFs linkedPaging (fun _ => 0) es k live hr (by decide +kernel)
    (by decide +kernel)).1 1 8 (by simp [hlive])
  exact ⟨k, live, hr, h.trans hlive⟩

/-- A child of the first shell halts and its slot goes to the second terminal's shell:
pids stay distinct, but the parent of that root shell is the first shell. -/
theorem parent_chain_crosses :
    let es := [.tick 0 0 zeroEnv, .execute (some (ascii "shell")) zeroEnv, .halt 0 zeroEnv,
      .tick 0 0 zeroEnv]
    ∃ k live, run (stepLive smallFs) (Kernel.boot linkedPaging fun _ => 0, fun _ => []) es =
        some (k, live) ∧
      Always (stepLive smallFs) Distinct (Kernel.boot linkedPaging fun _ => 0, fun _ => []) es ∧
      live 1 = [1] ∧ k.proc.ancestors 8 (k.proc.active 1) = [1, 0] := by
  intro es
  have hrun : ((run (stepLive smallFs) (Kernel.boot linkedPaging fun _ => 0, fun _ => []) es).map
      fun q => (q.2 1, q.1.proc.ancestors 8 (q.1.proc.active 1))) = some ([1], [1, 0]) := by
    decide +kernel
  obtain ⟨⟨k, live⟩, hr, hq⟩ := Option.map_eq_some_iff.mp hrun
  simp only [Prod.mk.injEq] at hq
  exact ⟨k, live, hr, by decide +kernel, hq⟩

end Flipit

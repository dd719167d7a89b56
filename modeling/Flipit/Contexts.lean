import Flipit.HaltRaces

/- Whose registers a tick loads.

   The tick that preempts terminal u stores u's registers in the entry of the
   terminal that comes next, u + 1 (mod 3), and the tick that comes back to u loads
   them from there. The invariant (`Contexts`) is about that shifted entry: for
   every terminal that is not running, entry t + 1 holds what was captured when t
   was preempted. Between two ticks the entries' registers do not change, since
   `execute` and `halt` touch only the pointers of the running terminal, and the
   one entry a tick overwrites is that of the terminal it resumes.

   A tick finds a terminal without a process only before the terminals are started,
   or after the `halt` of a root shell has stored `NULL`: then it does not resume the
   `halt`, it launches a shell, and the next tick writes over the context of a `halt`
   that was never resumed (`context_overwritten`). Where no tick falls there (`Steady`),
   every context stays in its entry until its terminal is resumed with it
   (`tick_loads_preempted`).

   The registers captured and not yet loaded again are a ghost of the run, the
   specification's own record (`capture`). The runs are those of the statements of
   `halt`, with ticks between any two. -/
namespace Flipit
open Machine

/-- For each terminal, the registers that a tick has captured from it and none has loaded since. -/
abbrev Saved := Int → Option (Nat × Nat)

/-- A tick captures the registers of the terminal it preempts. It takes those of the terminal it
resumes, and where it launches a shell it resumes nobody. -/
def capture (x : System) (turn : Turn) (o : Option Outcome) (y : System) (saved : Saved) : Saved :=
  match turn, o with
  | .run (.tick esp ebp _), some (.switched _ _) =>
    Function.update (Function.update saved x.kernel.terminalNum (some (esp, ebp))) y.kernel.terminalNum none
  | .run (.tick esp ebp _), _ => Function.update saved x.kernel.terminalNum (some (esp, ebp))
  | _, _ => saved

/-- The system with the record of its processes and of the registers. -/
def stepSaved (fs : Fs) : (System × Births) × Saved → Turn →
    Option (Option Outcome × ((System × Births) × Saved)) :=
  ghost (stepBirths fs) fun q turn o q' => capture q.1 turn o q'.1

/-- A tick comes while the running terminal has an active process, or before all of them; no
root shell halts that has a parent in its block. -/
def Steady (q : (System × Births) × Saved) : Turn → Prop
  | .run (.tick _ _ _) => q.1.1.kernel.terminalNum = -1 ∨ q.1.1.kernel.active ≠ none
  | .halt _ => ∀ a, q.1.2.live q.1.1.kernel.terminalNum = [a] → (q.1.1.kernel.proc.pcb a).parentPcb = none
  | _ => True

/-- The entry `t + 1` of a process table. -/
def context (s : Proc) (t : Int) : Nat × Nat :=
  ((s.term (Proc.nextTerm t)).esp, (s.term (Proc.nextTerm t)).ebp)

structure Contexts (k : Kernel) (saved : Saved) : Prop where
  range : -1 ≤ k.terminalNum ∧ k.terminalNum ≤ 2
  unsaved : k.terminalNum = -1 → ∀ t, saved t = none
  running : 0 ≤ k.terminalNum → saved k.terminalNum = none
  kept : ∀ t, 0 ≤ t → t ≤ 2 → t ≠ k.terminalNum → ∀ c, saved t = some c → context k.proc t = c
  pending : ∀ t, 0 ≤ t → t ≤ 2 → t ≠ k.terminalNum → 0 ≤ k.terminalNum →
    k.proc.active t ≠ none → saved t ≠ none
  alive : ∀ t, 0 ≤ t → t ≤ 2 → t ≠ k.terminalNum → saved t ≠ none → k.proc.active t ≠ none

/-! ## What the calls leave in the terminal array -/

variable {s : Proc} {t u : Int}

/-- Two tables with the same registers in every entry. -/
def SameRegs (s s' : Proc) : Prop :=
  ∀ u, (s'.term u).esp = (s.term u).esp ∧ (s'.term u).ebp = (s.term u).ebp

theorem SameRegs.context {s' : Proc} (h : SameRegs s s') (t : Int) : context s' t = context s t :=
  Prod.ext (h _).1 (h _).2

theorem SameRegs.of_update {s' : Proc} {x : TermProc} (h : s'.term = Function.update s.term t x)
    (hesp : x.esp = (s.term t).esp) (hebp : x.ebp = (s.term t).ebp) : SameRegs s s' := by
  intro u
  rw [h]
  by_cases hu : u = t
  · subst hu
    rw [Function.update_self]
    exact ⟨hesp, hebp⟩
  · rw [Function.update_of_ne hu]
    exact ⟨rfl, rfl⟩

theorem SameRegs.of_term {s' : Proc} (h : s'.term = s.term) : SameRegs s s' := by
  intro u
  rw [h]
  exact ⟨rfl, rfl⟩

theorem launch_regs (s : Proc) (t : Int) (i : Fin 8) (arg : List UInt8) (esp ebp : Nat) :
    SameRegs s (s.launch t i arg esp ebp) := .of_update rfl rfl rfl

/-- What a step of the scheduled terminal leaves: the terminal, the registers, and the processes of
the other terminals. -/
structure Local (k k' : Kernel) : Prop where
  terminalNum : k'.terminalNum = k.terminalNum
  regs : SameRegs k.proc k'.proc
  active : ∀ u, u ≠ k.terminalNum → k'.proc.active u = k.proc.active u

theorem Local.of_term {k k' : Kernel} (ht : k'.terminalNum = k.terminalNum) (hp : k'.proc.term = k.proc.term) :
    Local k k' := by
  refine ⟨ht, .of_term hp, fun u _ => ?_⟩
  rw [Proc.active, hp]
  rfl

theorem Local.setActive {k : Kernel} (a : Option (Fin 8)) :
    Local k { k with proc := k.proc.setActive k.terminalNum a } :=
  ⟨rfl, .of_update rfl rfl rfl, fun _ hu => setActive_active_ne hu ..⟩

theorem local_event {fs : Fs} {k k' : Kernel} {e : Event} {o : Outcome} (he : e.isHalt = false)
    (htick : ∀ esp ebp env, e ≠ .tick esp ebp env) (hs : k.step fs e = some (o, k')) : Local k k' := by
  cases Kernel.step_cases hs with
  | quiet hh hq =>
    rcases hq.table with hp | ⟨a, fd, f, hd⟩
    · exact .of_term hq.terminalNum (by rw [hp])
    · exact .of_term hq.terminalNum (by rw [hd.proc]; rfl)
  | child ha hi hp hm ht =>
    refine ⟨ht, by rw [hp]; exact launch_regs _ _ _ _ _ _, fun u hu => ?_⟩
    rw [hp, Proc.launch_active_ne hu]
  | release => cases he
  | restart => cases he
  | first => exact absurd rfl (htick _ _ _)
  | switch => exact absurd rfl (htick _ _ _)

/-- The statements of `halt` store into the process control blocks, the array of pids and the active process of
the scheduled terminal. -/
theorem local_statement {fs : Fs} {env : ExecEnv} {status : UInt8} {k k' : Kernel} {pc : Pc} {g : Goes}
    (h : k.statement fs env status pc = some (g, k')) : Local k k' := by
  have ht := statement_terminalNum h
  have hparent : ∀ {f : Fin 8 × Fin 8 → Goes × Kernel}, k.activeParent.map f = some (g, k') →
      ∃ a p, f (a, p) = (g, k') := by
    intro f hf
    obtain ⟨⟨a, p⟩, -, he⟩ := Option.map_eq_some_iff.mp hf
    exact ⟨a, p, he⟩
  cases pc with
  | store | bump | root | freeZero | again =>
    obtain ⟨-, rfl⟩ := Prod.mk.inj (Option.some.inj h)
    exact .of_term rfl rfl
  | test | parent | free =>
    obtain ⟨a, -, he⟩ := Option.map_eq_some_iff.mp h
    obtain ⟨-, rfl⟩ := Prod.mk.inj he
    exact .of_term rfl rfl
  | remap | esp0 | ss0 =>
    obtain ⟨a, p, he⟩ := hparent h
    obtain ⟨-, rfl⟩ := Prod.mk.inj he
    exact .of_term rfl rfl
  | close fd =>
    obtain ⟨⟨o, k1⟩, hclose, he⟩ := Option.map_eq_some_iff.mp h
    obtain ⟨-, rfl⟩ := Prod.mk.inj he
    rcases (Kernel.close_cases hclose).2.2.2 with hp | ⟨a, -, -, -, hp⟩
    · exact .of_term ht (by rw [hp])
    · exact .of_term ht (by rw [hp]; rfl)
  | clear i =>
    rw [Kernel.statement] at h
    split at h
    · obtain ⟨a, p, he⟩ := hparent h
      obtain ⟨-, rfl⟩ := Prod.mk.inj he
      exact .of_term rfl rfl
    · obtain ⟨-, rfl⟩ := Prod.mk.inj (Option.some.inj h)
      exact .of_term rfl rfl
  | forget =>
    obtain ⟨-, rfl⟩ := Prod.mk.inj (Option.some.inj h)
    exact .setActive none
  | print =>
    obtain ⟨k1, hputs, he⟩ := Option.map_eq_some_iff.mp h
    obtain ⟨m, cur, rfl⟩ := Kernel.puts_frame hputs
    obtain ⟨-, rfl⟩ := Prod.mk.inj he
    exact .of_term rfl rfl
  | restart =>
    obtain ⟨⟨o, k1⟩, hlaunch, he⟩ := Option.map_eq_some_iff.mp h
    obtain ⟨i, entry, n, a, bytes, hi, rfl, -, rfl⟩ := Kernel.launchShell_cases hlaunch
    obtain ⟨-, rfl⟩ := Prod.mk.inj he
    exact ⟨rfl, launch_regs _ _ _ _ _ _, fun u hu => Proc.launch_active_ne hu⟩
  | leave =>
    obtain ⟨a, -, he⟩ := Option.map_eq_some_iff.mp h
    obtain ⟨-, rfl⟩ := Prod.mk.inj he
    exact .setActive _

theorem Contexts.stays {k k' : Kernel} {saved : Saved} (h : Contexts k saved) (hl : Local k k') :
    Contexts k' saved where
  range := by rw [hl.terminalNum]; exact h.range
  unsaved := by rw [hl.terminalNum]; exact h.unsaved
  running := by rw [hl.terminalNum]; exact h.running
  kept := by
    intro t h0 h2 hne c hc
    rw [hl.regs.context]
    exact h.kept t h0 h2 (by rwa [← hl.terminalNum]) c hc
  pending := by
    intro t h0 h2 hne hn hact
    rw [hl.terminalNum] at hne hn
    rw [hl.active t hne] at hact
    exact h.pending t h0 h2 hne hn hact
  alive := by
    intro t h0 h2 hne hsaved
    rw [hl.terminalNum] at hne
    rw [hl.active t hne]
    exact h.alive t h0 h2 hne hsaved

/-- A context is that of a terminal which is not running. -/
theorem Contexts.ne_running {k : Kernel} {saved : Saved} (h : Contexts k saved) {c : Nat × Nat} (h0 : 0 ≤ t)
    (hc : saved t = some c) : t ≠ k.terminalNum := by
  intro ht
  have hnone := h.running (by omega)
  rw [← ht, hc] at hnone
  cases hnone

/-! ## A tick -/

/-- The entry a tick overwrites is that of no terminal that it leaves alone. -/
theorem nextTerm_ne {t n : Int} (h0 : 0 ≤ t) (h2 : t ≤ 2) (hn : 0 ≤ n ∧ n ≤ 2) (h : t ≠ n) :
    Proc.nextTerm t ≠ (n + 1) % 3 := by
  unfold Proc.nextTerm; omega

section
variable {k k' : Kernel} {esp ebp : Nat}

theorem ticked_term (hn : 0 ≤ k.terminalNum) : (k.ticked esp ebp).proc.term = k.proc.term := by
  have hf : ∀ u, k.fresh u = false := by
    intro u
    have : k.terminalNum ≠ -1 := by omega
    simp [Kernel.fresh, this]
  simp [Kernel.ticked, Kernel.tickInit, hf]

theorem ticked_none (hn : k.terminalNum = -1) {u : Int} (h0 : 0 ≤ u) (h2 : u ≤ 2) :
    (k.ticked esp ebp).proc.active u = none := by
  have hu : isTerm u = true := isTerm_of_range (by omega)
  simp [Kernel.ticked, Kernel.tickInit, Kernel.fresh, Proc.active, hn, hu, TermProc.zero]

/-- What a tick leaves of the terminals: the next one is scheduled, the registers captured are in
its entry, and the processes of the others are the same. -/
structure Moves (k : Kernel) (esp ebp : Nat) (k' : Kernel) : Prop where
  terminalNum : k'.terminalNum = (k.terminalNum + 1) % 3
  regs : SameRegs ((k.ticked esp ebp).proc.saveContext ((k.terminalNum + 1) % 3) esp ebp) k'.proc
  active : ∀ u, u ≠ k'.terminalNum → k'.proc.active u = (k.ticked esp ebp).proc.active u

theorem Contexts.kept_tick {saved : Saved} (h : Contexts k saved) (hm : Moves k esp ebp k') {t : Int}
    (h0 : 0 ≤ t) (h2 : t ≤ 2) (hne : t ≠ k'.terminalNum) {c : Nat × Nat}
    (hc : Function.update saved k.terminalNum (some (esp, ebp)) t = some c) : context k'.proc t = c := by
  have hrange := h.range
  rw [hm.terminalNum] at hne
  rw [hm.regs.context]
  by_cases htn : t = k.terminalNum
  · -- the terminal just preempted
    subst htn
    obtain rfl : (esp, ebp) = c := by simpa using hc
    simp [context, Proc.saveContext, Proc.nextTerm]
  · rw [Function.update_of_ne htn] at hc
    have hn : k.terminalNum ≠ -1 := by
      intro hn
      rw [h.unsaved hn t] at hc
      cases hc
    have hslot := nextTerm_ne h0 h2 ⟨by omega, hrange.2⟩ htn
    simp only [context, Proc.saveContext, Function.update_of_ne hslot, ticked_term (show 0 ≤ k.terminalNum by omega)]
    exact h.kept t h0 h2 htn c hc

/-- The terminals that neither the capture nor the tick's own terminal concerns. -/
theorem Contexts.active_tick {saved : Saved} (h : Contexts k saved) {t : Int} (h0 : 0 ≤ t) (h2 : t ≤ 2)
    (htn : t ≠ k.terminalNum) : (k.ticked esp ebp).proc.active t ≠ none ↔ saved t ≠ none := by
  have hrange := h.range
  by_cases hn : k.terminalNum = -1
  · rw [ticked_none hn h0 h2, h.unsaved hn t]
    simp
  · rw [Proc.active, ticked_term (by omega)]
    exact ⟨h.pending t h0 h2 htn (by omega), h.alive t h0 h2 htn⟩

/-- A tick in a run that is steady: `saved'` is the record with what was captured, without what
was there for the terminal that is scheduled now. -/
theorem Contexts.tick {saved saved' : Saved} (h : Contexts k saved) (hm : Moves k esp ebp k')
    (hsteady : k.terminalNum = -1 ∨ k.active ≠ none) (hnew : saved' k'.terminalNum = none)
    (hsaved : ∀ t, t ≠ k'.terminalNum → saved' t = Function.update saved k.terminalNum (some (esp, ebp)) t) :
    Contexts k' saved' := by
  have hrange := h.range
  have hnum := hm.terminalNum
  -- the preempted terminal has a process, and the others keep theirs
  have hboth : ∀ t, 0 ≤ t → t ≤ 2 → t ≠ k'.terminalNum →
      (k'.proc.active t ≠ none ↔ saved' t ≠ none) := by
    intro t h0 h2 hne
    rw [hm.active t hne, hsaved t hne]
    by_cases htn : t = k.terminalNum
    · subst htn
      have hact : k.active ≠ none := hsteady.resolve_left (by omega)
      rw [Function.update_self, Proc.active, ticked_term h0]
      exact ⟨fun _ => Option.some_ne_none _, fun _ => hact⟩
    · rw [Function.update_of_ne htn]
      exact h.active_tick h0 h2 htn
  refine ⟨by omega, fun hn => by omega, fun _ => hnew, fun t h0 h2 hne c hc => ?_,
    fun t h0 h2 hne _ => (hboth t h0 h2 hne).mp, fun t h0 h2 hne => (hboth t h0 h2 hne).mpr⟩
  rw [hsaved t hne] at hc
  exact h.kept_tick hm h0 h2 hne hc

end

/-! ## Runs -/

section
variable {fs : Fs} {k k' : Kernel} {esp ebp : Nat} {env : ExecEnv} {o : Outcome} {saved : Saved}

theorem tick_moves (hs : k.step fs (.tick esp ebp env) = some (o, k')) : Moves k esp ebp k' ∧
    (((k.ticked esp ebp).active = none ∧ ∃ entry, o = .entered entry) ∨
      ∃ a, (k.ticked esp ebp).active = some a ∧ o = .switched k'.proc.esp k'.proc.ebp) := by
  cases Kernel.step_cases hs with
  | quiet hh hq => exact absurd rfl (hq.not_tick hs esp ebp env)
  | first ha hi hp hm ht =>
    refine ⟨⟨ht, by rw [hp]; exact launch_regs _ _ _ _ _ _, fun u hu => ?_⟩, .inl ⟨ha, _, rfl⟩⟩
    rw [ht] at hu
    rw [hp, Proc.launch_active_ne hu]
    exact Proc.saveContext_active ..
  | switch ha hp hm ht =>
    refine ⟨⟨ht, by rw [hp]; exact fun _ => ⟨rfl, rfl⟩, fun u hu => ?_⟩, .inr ⟨_, ha, rfl⟩⟩
    rw [hp, Proc.switchTo_active]

/-- A tick that comes to a terminal with an active process loads what was captured from it. -/
theorem Contexts.loads (h : Contexts k saved) {a : Fin 8} (ha : (k.ticked esp ebp).active = some a)
    (hs : k.step fs (.tick esp ebp env) = some (o, k')) :
    k'.terminalNum = (k.terminalNum + 1) % 3 ∧
    (∃ c, saved k'.terminalNum = some c ∧ o = .switched c.1 c.2) ∧
    k'.paging = (k.paging.userPageInit (k.proc.pcb a).pid.val).termPageSwitch
      k'.currentVisible k'.terminalNum ∧
    k'.proc.tss.esp0 = (k.proc.pcb a).esp0 := by
  rcases Kernel.scheduler_cases hs with ⟨hnone, -⟩ | ⟨a', ha', rfl, hk'⟩
  · rw [ha] at hnone
    cases hnone
  obtain rfl : a = a' := Option.some.inj (ha.symm.trans ha')
  have hrange := h.range
  have ht : k'.terminalNum = (k.terminalNum + 1) % 3 := by rw [hk']; rfl
  have hn : 0 ≤ k.terminalNum := by
    by_contra hneg
    have hnone : (k.ticked esp ebp).proc.active ((k.terminalNum + 1) % 3) = none :=
      ticked_none (by omega) (by omega) (by omega)
    exact absurd (ha.symm.trans hnone) (Option.some_ne_none a)
  have hne : (k.terminalNum + 1) % 3 ≠ k.terminalNum := by omega
  have hact : (k.ticked esp ebp).proc.active ((k.terminalNum + 1) % 3) ≠ none := by
    have hsome : (k.ticked esp ebp).proc.active ((k.terminalNum + 1) % 3) = some a := ha
    rw [hsome]
    exact Option.some_ne_none a
  obtain ⟨c, hc⟩ := Option.ne_none_iff_exists'.mp ((h.active_tick (by omega) (by omega) hne).mp hact)
  refine ⟨ht, ⟨c, by rw [ht]; exact hc, ?_⟩, ?_, ?_⟩
  · -- the loaded entry is not the one the tick has just written
    have hctx := h.kept _ (by omega) (by omega) hne c hc
    have hslot : Proc.nextTerm ((k.terminalNum + 1) % 3) ≠ (k.terminalNum + 1) % 3 := by
      unfold Proc.nextTerm; omega
    rw [hk', ← hctx]
    simp [Kernel.termPageSwitch, Proc.switchTo, Proc.saveContext, context,
      Function.update_of_ne hslot, ticked_term hn]
  · rw [hk']; rfl
  · rw [hk']; rfl

theorem contexts_step {q r : (System × Births) × Saved} {turn : Turn} {out : Option Outcome}
    (h : Contexts q.1.1.kernel q.2) (hG : Steady q turn) (hs : stepSaved fs q turn = some (out, r)) :
    Contexts r.1.1.kernel r.2 := by
  obtain ⟨⟨⟨k, control⟩, b⟩, saved⟩ := q
  obtain ⟨⟨y, b'⟩, hb, rfl⟩ := ghost_eq_some.mp hs
  obtain ⟨y, hstep, heq⟩ := ghost_eq_some.mp hb
  obtain ⟨rfl, -⟩ := Prod.mk.inj heq
  dsimp only at h
  cases System.step_cases hstep with
  | @event e o k' he hu hk =>
    cases e with
    | tick esp ebp env =>
      obtain ⟨hm, ⟨hnone, entry, rfl⟩ | ⟨a, ha, rfl⟩⟩ := tick_moves hk
      · -- a terminal without a process has no context
        have hrange : -1 ≤ k.terminalNum ∧ k.terminalNum ≤ 2 := h.range
        have hnum : k'.terminalNum = (k.terminalNum + 1) % 3 := hm.terminalNum
        have hne : k'.terminalNum ≠ k.terminalNum := by omega
        refine h.tick hm hG ?_ fun t _ => rfl
        refine (Function.update_of_ne hne ..).trans ?_
        by_contra hsome
        have hact : (k.ticked esp ebp).proc.active k'.terminalNum ≠ none :=
          (h.active_tick (by omega) (by omega) hne).mpr hsome
        rw [hnum] at hact
        exact hact hnone
      · exact h.tick hm hG (Function.update_self ..) fun t ht => Function.update_of_ne ht ..
    | _ => exact h.stays (local_event he nofun hk)
  | call hu ha => exact h
  | on hpc hk => exact h.stays (local_statement hk)
  | out hpc hk => exact h.stays (local_statement hk)

theorem contexts_boot (p : Paging) (mem : Bytes.Memory) : Contexts (Kernel.boot p mem) fun _ => none where
  range := by simp [Kernel.boot]
  unsaved := fun _ _ => rfl
  running := fun _ => rfl
  kept := by intro t _ _ _ c hc; cases hc
  pending := by intro t _ _ _ hn; simp [Kernel.boot] at hn
  alive := by intro t _ _ _ hs; exact absurd rfl hs

/-- In one step a context stays, in its entry, or its terminal is resumed with it. -/
theorem pending_step {q r : (System × Births) × Saved} {turn : Turn} {out : Option Outcome} {t : Int} {c : Nat × Nat}
    (h : Contexts q.1.1.kernel q.2) (hG : Steady q turn) (hs : stepSaved fs q turn = some (out, r))
    (h0 : 0 ≤ t) (h2 : t ≤ 2) (hc : q.2 t = some c) :
    (r.2 t = some c ∧ context r.1.1.kernel.proc t = c) ∨
      (r.1.1.kernel.terminalNum = t ∧ out = some (.switched c.1 c.2)) := by
  have h' := contexts_step h hG hs
  -- where it stays, the invariant has it in its entry
  have hstays : r.2 t = some c → r.2 t = some c ∧ context r.1.1.kernel.proc t = c := by
    intro hr
    exact ⟨hr, h'.kept t h0 h2 (h'.ne_running h0 hr) c hr⟩
  obtain ⟨⟨⟨k, control⟩, b⟩, saved⟩ := q
  obtain ⟨⟨y, b'⟩, hb, rfl⟩ := ghost_eq_some.mp hs
  obtain ⟨y, hstep, heq⟩ := ghost_eq_some.mp hb
  obtain ⟨rfl, -⟩ := Prod.mk.inj heq
  dsimp only at h hc hstays ⊢
  have hpast : t ≠ k.terminalNum := h.ne_running h0 hc
  cases System.step_cases hstep with
  | @event e o k' he hu hk =>
    cases e with
    | tick esp ebp env =>
      have hold : Function.update saved k.terminalNum (some (esp, ebp)) t = some c := by
        rw [Function.update_of_ne hpast]
        exact hc
      obtain ⟨hm, ⟨hnone, entry, rfl⟩ | ⟨a, ha, rfl⟩⟩ := tick_moves hk
      · exact .inl (hstays hold)
      · by_cases ht : t = k'.terminalNum
        · obtain ⟨-, ⟨c', hc', ho⟩, -⟩ := h.loads ha hk
          rw [← ht, hc] at hc'
          obtain rfl := Option.some.inj hc'
          exact .inr ⟨ht.symm, congrArg some ho⟩
        · exact .inl (hstays ((Function.update_of_ne ht ..).trans hold))
    | _ => exact .inl (hstays hc)
  | call hu ha => exact .inl (hstays hc)
  | on hpc hk => exact .inl (hstays hc)
  | out hpc hk => exact .inl (hstays hc)

end

/-- In every run from boot that is steady, with ticks between any two statements of `halt`: a tick
that comes to a terminal with an active process loads the registers captured when that
terminal was last preempted, maps the process and sets its kernel stack; the context of
a terminal is in its entry, and no turn takes it away but the tick that resumes the
terminal with it. -/
theorem tick_loads_preempted (fs : Fs) (p : Paging) (mem : Bytes.Memory) (turns : List Turn)
    (x : System) (b : Births) (saved : Saved)
    (hr : run (stepSaved fs) ((System.boot p mem, fun _ => []), fun _ => none) turns = some ((x, b), saved))
    (hG : Meets (stepSaved fs) Steady ((System.boot p mem, fun _ => []), fun _ => none) turns) :
    (∀ esp ebp env a o y, (x.kernel.ticked esp ebp).active = some a →
      x.step fs (.run (.tick esp ebp env)) = some (o, y) →
      y.kernel.terminalNum = (x.kernel.terminalNum + 1) % 3 ∧
      (∃ c, saved y.kernel.terminalNum = some c ∧ o = some (.switched c.1 c.2)) ∧
      y.kernel.paging = (x.kernel.paging.userPageInit (x.kernel.proc.pcb a).pid.val).termPageSwitch
        y.kernel.currentVisible y.kernel.terminalNum ∧
      y.kernel.proc.tss.esp0 = (x.kernel.proc.pcb a).esp0) ∧
    (∀ t : Fin 3, ∀ c, saved t.val = some c → context x.kernel.proc t.val = c) ∧
    ∀ turn o y b' saved', Steady ((x, b), saved) turn →
      stepSaved fs ((x, b), saved) turn = some (o, ((y, b'), saved')) →
      ∀ t : Fin 3, ∀ c, saved t.val = some c →
        (saved' t.val = some c ∧ context y.kernel.proc t.val = c) ∨
        (y.kernel.terminalNum = t.val ∧ o = some (.switched c.1 c.2)) := by
  have hinv : Contexts x.kernel saved :=
    run_invariant (I := fun q => Contexts q.1.1.kernel q.2) contexts_step (contexts_boot p mem) hG hr
  refine ⟨fun esp ebp env a o y ha hs => ?_, fun t c hc => ?_, fun turn o y b' saved' hsteady hs t c hc => ?_⟩
  · cases System.step_cases hs with
    | event he hu hk =>
      obtain ⟨ht, ⟨c, hc, rfl⟩, hpaging, htss⟩ := hinv.loads ha hk
      exact ⟨ht, ⟨c, hc, rfl⟩, hpaging, htss⟩
  · exact hinv.kept t.val (by omega) (by omega) (hinv.ne_running (by omega) hc) c hc
  · exact pending_step hinv hsteady hs (by omega) (by omega) hc

instance (q : (System × Births) × Saved) : (turn : Turn) → Decidable (Steady q turn)
  | .run (.tick _ _ _) => inferInstanceAs (Decidable (_ ∨ _))
  | .halt _ => inferInstanceAs (Decidable (∀ a, q.1.2.live q.1.1.kernel.terminalNum = [a] →
      (q.1.1.kernel.proc.pcb a).parentPcb = none))
  | .run (.key _) | .run .controlL | .run (.altF _) | .run .rtc | .run (.execute _ _) | .run (.halt _ _)
  | .run (.read _ _ _) | .run (.write _ _ _) | .run (.openFile _ _) | .run (.close _) | .run (.getargs _ _)
  | .run (.vidmap _) | .run (.store _ _) | .next _ => .isTrue trivial

/-- The first shell executes a child, whose `halt` is preempted behind its third statement; the other
two shells start. -/
def preemptedHalt : List Turn :=
  [.run (.tick 10 11 zeroEnv), .shell 100 200, .halt 7] ++ Turn.nexts 3 ++
    [.run (.tick 20 21 zeroEnv), .run (.tick 30 31 zeroEnv)]

/-- Back to terminal 0: what the second tick captured. -/
theorem tick_loads_preempted_round :
    ∃ x b saved y, run (stepSaved smallFs) ((System.boot linkedPaging fun _ => 0, fun _ => []), fun _ => none)
        preemptedHalt = some ((x, b), saved) ∧
      x.step smallFs (.run (.tick 40 41 zeroEnv)) = some (some (.switched 20 21), y) := by
  have hrun : ((run (stepSaved smallFs) ((System.boot linkedPaging fun _ => 0, fun _ => []), fun _ => none)
      preemptedHalt).map fun q => (q.1.1.kernel.terminalNum, q.2 0, (q.1.1.kernel.ticked 40 41).active,
        (q.1.1.step smallFs (.run (.tick 40 41 zeroEnv))).isSome)) =
      some (2, some (20, 21), some 1, true) := by decide +kernel
  obtain ⟨⟨⟨x, b⟩, saved⟩, hr, hq⟩ := Option.map_eq_some_iff.mp hrun
  simp only [Prod.mk.injEq] at hq
  obtain ⟨hn, hsaved, hact, hstep⟩ := hq
  obtain ⟨⟨o, y⟩, hs⟩ := Option.isSome_iff_exists.mp hstep
  obtain ⟨ht, ⟨c, hc, rfl⟩, -⟩ := (tick_loads_preempted smallFs linkedPaging (fun _ => 0) preemptedHalt x b saved hr
    (by decide +kernel)).1 40 41 zeroEnv 1 o y hact hs
  rw [ht, hn] at hc
  obtain rfl : (20, 21) = c := Option.some.inj (hsaved.symm.trans hc)
  exact ⟨x, b, saved, y, hr, hs⟩

/-- The first shell's `halt` is preempted behind the store of `NULL`, and the third tick from there
launches a shell in its terminal. -/
def preemptedRoot : List Turn :=
  Turn.ticks 4 ++ [.halt 0] ++ Turn.nexts 7 ++ [.run (.tick 70 71 zeroEnv)] ++ Turn.ticks 2

/-- No tick has loaded the context of that `halt` when the next one is stored over it. -/
theorem context_overwritten :
    ∃ x b saved o y b' saved',
      run (stepSaved smallFs) ((System.boot linkedPaging fun _ => 0, fun _ => []), fun _ => none)
        preemptedRoot = some ((x, b), saved) ∧
      saved 0 = some (70, 71) ∧ context x.kernel.proc 0 = (70, 71) ∧ x.kernel.terminalNum = 0 ∧
      x.kernel.active = some 0 ∧
      stepSaved smallFs ((x, b), saved) (.run (.tick 90 91 zeroEnv)) = some (o, ((y, b'), saved')) ∧
      y.kernel.terminalNum = 1 ∧ saved' 0 = some (90, 91) ∧ context y.kernel.proc 0 = (90, 91) := by
  have hrun : (run (stepSaved smallFs) ((System.boot linkedPaging fun _ => 0, fun _ => []), fun _ => none)
      preemptedRoot).map (fun q => (q.2 0, context q.1.1.kernel.proc 0, q.1.1.kernel.terminalNum,
        q.1.1.kernel.active)) = some (some (70, 71), (70, 71), 0, some 0) := by decide +kernel
  have htick : ((run (stepSaved smallFs) ((System.boot linkedPaging fun _ => 0, fun _ => []), fun _ => none)
      preemptedRoot).bind fun q => (stepSaved smallFs q (.run (.tick 90 91 zeroEnv))).map fun r =>
        (r.2.1.1.kernel.terminalNum, r.2.2 0, context r.2.1.1.kernel.proc 0)) =
      some (1, some (90, 91), (90, 91)) := by decide +kernel
  obtain ⟨⟨⟨x, b⟩, saved⟩, hr, hq⟩ := Option.map_eq_some_iff.mp hrun
  rw [hr, Option.bind_some] at htick
  obtain ⟨⟨o, ⟨⟨y, b'⟩, saved'⟩⟩, hs, hq'⟩ := Option.map_eq_some_iff.mp htick
  simp only [Prod.mk.injEq] at hq hq'
  obtain ⟨hsaved, hentry, hn, hact⟩ := hq
  obtain ⟨hnum, hnew, hover⟩ := hq'
  exact ⟨x, b, saved, o, y, b', saved', hr, hsaved, hentry, hn, hact, hs, hnum, hnew, hover⟩

end Flipit

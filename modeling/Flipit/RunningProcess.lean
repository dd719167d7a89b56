import Flipit.HaltSteps

/- The memory and the kernel stack a process runs on.

   `execute` and the scheduler set the page of the user program and `tss.esp0` for the
   process they are about to run. `halt` does so too, for the parent, but it changes
   `active_process` only at its end, and the scheduler goes by `active_process`: a
   tick in between comes back with the page and the stack of the process that is
   halting, and `halt` goes on to its parent without setting them again
   (`parent_on_child_frame`). If no tick comes between `user_page_init` and `cli`, a
   process in user code always has its own frame and its own stack
   (`user_on_own_frame`). -/
namespace Flipit
open Machine

/-- `halt` has mapped the parent's page and is not over. -/
def Pc.remapped : Pc → Bool
  | .esp0 | .ss0 | .free | .clear _ | .again false | .leave => true
  | _ => false

def Control.remapped : Control → Bool
  | .user => false
  | .halting _ _ pc => pc.remapped

/-- No tick comes while the scheduled terminal's `halt` is between `user_page_init` of the
parent and `cli`. -/
def SparesReturn (s : System) : Turn → Prop
  | .run (.tick _ _ _) => (s.control s.kernel.terminalNum).remapped = false
  | _ => True

/-- Process `a` runs, the entry of the user page maps its 4MB frame, and traps from user
code go to its kernel stack. -/
structure OnOwnFrame (k : Kernel) (a : Fin 8) : Prop where
  active : k.active = some a
  present : (k.paging.pageDirectory 32).presentFlag = true
  base : (k.paging.pageDirectory 32).baseAddress * 4096 = 0x800000 + 0x400000 * (k.proc.pcb a).pid.val
  frame : ∀ v write, UserRange v → k.paging.translate ⟨true, write⟩ v =
    some (0x800000 + 0x400000 * (k.proc.pcb a).pid.val + (v - 0x08000000))
  stack : k.proc.tss.esp0 = (k.proc.pcb a).esp0

/-- The tables map the frame of slot `a` and the TSS holds its stack. -/
structure Installed (layout : Layout) (k : Kernel) (a : Fin 8) : Prop where
  mapped : k.mmu.Ok layout (some (k.proc.pcb a).pid.val)
  stack : k.proc.tss.esp0 = (k.proc.pcb a).esp0

/-- In user code the running process is installed; between `user_page_init` and `cli` of a
`halt` the parent is; and no terminal was preempted there. -/
structure Seated (layout : Layout) (s : System) : Prop where
  mapped : ∃ last, s.kernel.mmu.Ok layout last
  parked : ∀ u, u ≠ s.kernel.terminalNum → (s.control u).remapped = false
  user : 0 ≤ s.kernel.terminalNum → s.control s.kernel.terminalNum = .user →
    ∃ a, s.kernel.active = some a ∧ Installed layout s.kernel a
  parent : ∀ slot status pc, s.control s.kernel.terminalNum = .halting slot status pc →
    pc.remapped = true → ∃ a p, s.kernel.activeParent = some (a, p) ∧
      s.kernel.mmu.Ok layout (some (s.kernel.proc.pcb p).pid.val) ∧
      (pc ≠ .esp0 → s.kernel.proc.tss.esp0 = (s.kernel.proc.pcb p).esp0)

variable {fs : Fs} {layout : Layout} {k k' : Kernel} {s s' : System} {a p i : Fin 8} {e : Event}
  {o : Outcome} {control : Int → Control} {slot : Fin 8} {status : UInt8} {pc pc' : Pc}

theorem Installed.onOwnFrame (h : Installed layout k a) (ha : k.active = some a) : OnOwnFrame k a := by
  have hpaging : k.paging = _ := h.mapped.paging
  refine ⟨ha, ?_, ?_, fun v write hv => ?_, h.stack⟩
  · rw [hpaging]
    rfl
  · rw [hpaging]
    change (0x800 + 0x400 * _) * 4096 = _
    omega
  · obtain ⟨hl, hr⟩ := hv
    rw [hpaging]
    refine (Paging.translate_user layout _ _ v write).trans ?_
    rw [if_pos (by omega), show v % 2 ^ 22 = v - 0x08000000 by omega]

theorem installed_launch {q : Proc} {t : Int} {arg : List UInt8} {esp ebp : Nat} {m : Mmu} {last : Option Nat}
    (hp : k'.proc = q.launch t i arg esp ebp) (hm : k'.mmu = m.step (.userPageInit i))
    (hok : m.Ok layout last) : Installed layout k' i := by
  constructor
  · rw [hp, Proc.launch_pcb, hm]
    exact Mmu.step_ok (.userPageInit i) hok
  · rw [hp, Proc.launch_pcb]
    rfl

theorem Kernel.Quiet.ok {last : Option Nat} (h : Kernel.Quiet e k o k') (hok : k.mmu.Ok layout last) :
    k'.mmu.Ok layout last := by
  rcases h.mmu with hm | ⟨dest, hm⟩
  · rw [hm]
    exact hok
  · rw [hm]
    exact Mmu.step_ok (.termVisibleSwitch dest) hok

theorem activeParent_calm (hc : Calm k.proc k'.proc) (ht : k'.terminalNum = k.terminalNum)
    (h : k.activeParent = some (a, p)) : k'.activeParent = some (a, p) := by
  obtain ⟨ha, hp⟩ := activeParent_eq.mp h
  obtain ⟨fds, arg, hblock⟩ := hc.block a
  refine activeParent_eq.mpr ⟨?_, by rw [hblock, hp]⟩
  rw [Kernel.active, ht, hc.active]
  exact ha

/-- What is installed stays installed where nothing is started, released or mapped. -/
theorem Installed.calm (h : Installed layout k a) (hc : Calm k.proc k'.proc) (htss : k'.proc.tss = k.proc.tss)
    (hok : ∀ {last}, k.mmu.Ok layout last → k'.mmu.Ok layout last) : Installed layout k' a := by
  obtain ⟨fds, arg, hblock⟩ := hc.block a
  constructor
  · rw [hblock]
    exact hok h.mapped
  · rw [hblock, htss]
    exact h.stack

theorem Seated.quiet (h : Seated layout ⟨k, control⟩) (hq : Kernel.Quiet e k o k') :
    Seated layout ⟨k', control⟩ := by
  obtain ⟨hc, htss, -⟩ := hq.calm
  have ht := hq.terminalNum
  obtain ⟨last, hlast⟩ := h.mapped
  refine ⟨⟨last, hq.ok hlast⟩, fun u hu => ?_, fun h0 hu => ?_, fun slot status pc hpc hr => ?_⟩
  · dsimp only at hu
    rw [ht] at hu
    exact h.parked u hu
  · dsimp only at h0 hu ⊢
    rw [ht] at h0 hu
    obtain ⟨a, ha, hl⟩ := h.user h0 hu
    refine ⟨a, ?_, hl.calm hc htss hq.ok⟩
    rw [Kernel.active, ht, hc.active]
    exact ha
  · dsimp only at hpc ⊢
    rw [ht] at hpc
    obtain ⟨a, p, hap, hm, hstack⟩ := h.parent slot status pc hpc hr
    obtain ⟨fds, arg, hblock⟩ := hc.block p
    refine ⟨a, p, activeParent_calm hc ht hap, ?_, fun hne => ?_⟩
    · rw [hblock]
      exact hq.ok hm
    · rw [hblock, htss]
      exact hstack hne

theorem Seated.enter (hl : Installed layout k' a) (ha : k'.active = some a)
    (hpre : ∀ u, u ≠ k'.terminalNum → (control u).remapped = false) :
    Seated layout ⟨k', Function.update control k'.terminalNum .user⟩ where
  mapped := ⟨_, hl.mapped⟩
  parked := by
    intro u hu
    dsimp only at hu ⊢
    rw [Function.update_of_ne hu]
    exact hpre u hu
  user := fun _ _ => ⟨a, ha, hl⟩
  parent := by
    intro slot status pc hpc
    dsimp only at hpc
    rw [Function.update_self] at hpc
    cases hpc

theorem seated_event (h : Seated layout s) (hG : SparesReturn s (.run e)) (he : e.isHalt = false)
    (hs : s.kernel.step fs e = some (o, k')) : Seated layout ⟨k', System.landed s.control o k'⟩ := by
  obtain ⟨k, control⟩ := s
  obtain ⟨last, hlast⟩ := h.mapped
  -- a tick leaves nobody behind who was preempted on the way to the parent
  have htick : ∀ esp ebp env, e = .tick esp ebp env → ∀ u, (control u).remapped = false := by
    intro esp ebp env heq u
    subst heq
    rcases eq_or_ne u k.terminalNum with rfl | hu
    · exact hG
    · exact h.parked u hu
  cases Kernel.step_cases hs with
  | quiet hh hq =>
    obtain ⟨v, data, rfl⟩ := hq.returned
    exact h.quiet hq
  | child ha hi hp hm ht =>
    refine .enter (installed_launch hp hm hlast) (Kernel.active_launched hp ht) fun u hu => ?_
    rw [ht] at hu
    exact h.parked u hu
  | release => cases he
  | restart => cases he
  | first ha hi hp hm ht =>
    refine .enter (installed_launch hp hm (Mmu.step_ok _ hlast)) (Kernel.active_launched hp ht) fun u _ => ?_
    exact htick _ _ _ rfl u
  | @switch _ a esp ebp env ha hp hm ht =>
    have hmapped : k'.mmu.Ok layout (some (k'.proc.pcb a).pid.val) := by
      rw [hm, hp]
      exact Mmu.step_ok (.schedule k.next) (Mmu.step_ok (.userPageInit (k.proc.pcb a).pid) hlast)
    have hactive : k'.active = some a := by
      rw [Kernel.active, ht, hp, Proc.switchTo_active]
      exact ha
    refine ⟨⟨_, hmapped⟩, fun u _ => htick _ _ _ rfl u, fun _ _ => ⟨a, hactive, hmapped, by rw [hp]; rfl⟩,
      fun slot status pc hpc hr => ?_⟩
    -- it comes back to a statement in front of the remapping
    have hnot := htick _ _ _ rfl k'.terminalNum
    dsimp only [System.landed] at hpc
    rw [hpc] at hnot
    exact absurd hr (by rw [Control.remapped] at hnot; rw [hnot]; decide)

/-- `halt` goes on to a statement; the parent is installed if it has been mapped. -/
theorem Seated.goOn (h : Seated layout ⟨k, control⟩) (ht : k'.terminalNum = k.terminalNum)
    (hm : ∃ last, k'.mmu.Ok layout last)
    (hp : pc'.remapped = true → ∃ a p, k'.activeParent = some (a, p) ∧
      k'.mmu.Ok layout (some (k'.proc.pcb p).pid.val) ∧
      (pc' ≠ .esp0 → k'.proc.tss.esp0 = (k'.proc.pcb p).esp0)) :
    Seated layout ⟨k', Function.update control k.terminalNum (.halting slot status pc')⟩ where
  mapped := hm
  parked := by
    intro u hu
    dsimp only at hu ⊢
    rw [ht] at hu
    rw [Function.update_of_ne hu]
    exact h.parked u hu
  user := by
    intro _ hu
    dsimp only at hu
    rw [ht, Function.update_self] at hu
    cases hu
  parent := by
    intro slot' status' pc hpc
    dsimp only at hpc
    rw [ht, Function.update_self] at hpc
    obtain ⟨rfl, rfl, rfl⟩ := Control.halting.inj hpc
    exact hp

theorem Seated.goOn_unmapped (h : Seated layout ⟨k, control⟩) (ht : k'.terminalNum = k.terminalNum)
    (hm : ∃ last, k'.mmu.Ok layout last) (hr : pc'.remapped = false) :
    Seated layout ⟨k', Function.update control k.terminalNum (.halting slot status pc')⟩ := by
  apply h.goOn ht hm
  intro hp
  rw [hr] at hp
  cases hp

theorem seated_statement {env : ExecEnv} {g : Goes} (h : Seated layout ⟨k, control⟩)
    (hpc : control k.terminalNum = .halting slot status pc)
    (hs : k.statement fs env status pc = some (g, k')) :
    Seated layout ⟨k', Function.update control k.terminalNum
      (match g with | .on pc => .halting slot status pc | .out _ => .user)⟩ := by
  have hmapped : ∃ last, k.mmu.Ok layout last := h.mapped
  have hparent : pc.remapped = true → ∃ a p, k.activeParent = some (a, p) ∧
      k.mmu.Ok layout (some (k.proc.pcb p).pid.val) ∧
      (pc ≠ .esp0 → k.proc.tss.esp0 = (k.proc.pcb p).esp0) := h.parent slot status pc hpc
  cases pc with
  | store =>
    obtain ⟨rfl, rfl⟩ := Prod.mk.inj (Option.some.inj hs)
    exact h.goOn_unmapped rfl hmapped rfl
  | test fd =>
    obtain ⟨a, -, he⟩ := Option.map_eq_some_iff.mp hs
    obtain ⟨rfl, rfl⟩ := Prod.mk.inj he
    refine h.goOn rfl hmapped fun hr => ?_
    split at hr <;> cases hr
  | close fd =>
    obtain ⟨⟨o, k1⟩, hclose, he⟩ := Option.map_eq_some_iff.mp hs
    obtain ⟨rfl, rfl⟩ := Prod.mk.inj he
    obtain ⟨-, hm, -⟩ := Kernel.close_cases hclose
    exact h.goOn_unmapped (congrArg Mmu.terminalNum hm) (by rw [hm]; exact hmapped) rfl
  | bump fd =>
    obtain ⟨rfl, rfl⟩ := Prod.mk.inj (Option.some.inj hs)
    exact h.goOn_unmapped rfl hmapped rfl
  | parent =>
    obtain ⟨a, ha, he⟩ := Option.map_eq_some_iff.mp hs
    obtain ⟨rfl, rfl⟩ := Prod.mk.inj he
    refine h.goOn rfl hmapped fun hr => ?_
    split at hr <;> cases hr
  | remap =>
    obtain ⟨⟨a, p⟩, hap, he⟩ := Option.map_eq_some_iff.mp hs
    obtain ⟨rfl, rfl⟩ := Prod.mk.inj he
    obtain ⟨last, hlast⟩ := hmapped
    have hok := Mmu.step_ok (.userPageInit (k.proc.pcb p).pid) hlast
    exact h.goOn rfl ⟨_, hok⟩ fun _ => ⟨a, p, hap, hok, fun hne => absurd rfl hne⟩
  | esp0 =>
    obtain ⟨a, p, hap, hok, -⟩ := hparent rfl
    obtain ⟨⟨a', p'⟩, hap', he⟩ := Option.map_eq_some_iff.mp hs
    obtain ⟨rfl, rfl⟩ := Prod.mk.inj he
    obtain ⟨rfl, rfl⟩ := Prod.mk.inj (Option.some.inj (hap'.symm.trans hap))
    exact h.goOn rfl hmapped fun _ => ⟨a', p', hap, hok, fun _ => rfl⟩
  | ss0 =>
    obtain ⟨a, p, hap, hok, hstack⟩ := hparent rfl
    obtain ⟨⟨a', p'⟩, -, he⟩ := Option.map_eq_some_iff.mp hs
    obtain ⟨rfl, rfl⟩ := Prod.mk.inj he
    exact h.goOn rfl hmapped fun _ => ⟨a, p, hap, hok, fun _ => hstack (by simp)⟩
  | free =>
    obtain ⟨a, p, hap, hok, hstack⟩ := hparent rfl
    obtain ⟨a', -, he⟩ := Option.map_eq_some_iff.mp hs
    obtain ⟨rfl, rfl⟩ := Prod.mk.inj he
    exact h.goOn rfl hmapped fun _ => ⟨a, p, hap, hok, fun _ => hstack (by simp)⟩
  | clear i =>
    obtain ⟨a, p, hap, hok, hstack⟩ := hparent rfl
    rw [Kernel.statement] at hs
    split at hs
    · obtain ⟨⟨a', p'⟩, hap', he⟩ := Option.map_eq_some_iff.mp hs
      obtain ⟨rfl, rfl⟩ := Prod.mk.inj he
      have hcalm := withArg_calm k p' (Function.update (k.proc.pcb p').arg i 0)
      obtain ⟨fds, arg, hblock⟩ := hcalm.block p
      have hnext : Seated layout ⟨k.withArg p' (Function.update (k.proc.pcb p').arg i 0),
          Function.update control k.terminalNum (.halting slot status (.clear (i + 1)))⟩ := by
        refine h.goOn rfl hmapped fun _ => ⟨a, p, activeParent_calm hcalm rfl hap, ?_, fun _ => ?_⟩
        · rw [hblock]
          exact hok
        · rw [hblock]
          exact hstack (by simp)
      exact hnext
    · obtain ⟨rfl, rfl⟩ := Prod.mk.inj (Option.some.inj hs)
      exact h.goOn rfl hmapped fun _ => ⟨a, p, hap, hok, fun _ => hstack (by simp)⟩
  | root =>
    obtain ⟨rfl, rfl⟩ := Prod.mk.inj (Option.some.inj hs)
    exact h.goOn_unmapped rfl hmapped rfl
  | freeZero =>
    obtain ⟨rfl, rfl⟩ := Prod.mk.inj (Option.some.inj hs)
    exact h.goOn_unmapped rfl hmapped rfl
  | again isShell =>
    obtain ⟨rfl, rfl⟩ := Prod.mk.inj (Option.some.inj hs)
    cases isShell with
    | true => exact h.goOn_unmapped rfl hmapped rfl
    | false =>
      obtain ⟨a, p, hap, hok, hstack⟩ := hparent rfl
      exact h.goOn rfl hmapped fun _ => ⟨a, p, hap, hok, fun _ => hstack (by simp)⟩
  | forget =>
    obtain ⟨rfl, rfl⟩ := Prod.mk.inj (Option.some.inj hs)
    exact h.goOn_unmapped rfl hmapped rfl
  | print =>
    obtain ⟨k1, hputs, he⟩ := Option.map_eq_some_iff.mp hs
    obtain ⟨m, cur, rfl⟩ := Kernel.puts_frame hputs
    obtain ⟨rfl, rfl⟩ := Prod.mk.inj he
    exact h.goOn_unmapped rfl hmapped rfl
  | restart =>
    obtain ⟨⟨o, k1⟩, hlaunch, he⟩ := Option.map_eq_some_iff.mp hs
    obtain ⟨i, entry, n, a, bytes, hi, rfl, -, rfl⟩ := Kernel.launchShell_cases hlaunch
    obtain ⟨rfl, rfl⟩ := Prod.mk.inj he
    obtain ⟨last, hlast⟩ := hmapped
    exact .enter (installed_launch rfl rfl hlast) (Kernel.active_launched rfl rfl) h.parked
  | leave =>
    obtain ⟨a, p, hap, hok, hstack⟩ := hparent rfl
    obtain ⟨ha, hp⟩ := activeParent_eq.mp hap
    obtain ⟨a', ha', he⟩ := Option.map_eq_some_iff.mp hs
    obtain ⟨rfl, rfl⟩ := Prod.mk.inj he
    obtain rfl := Option.some.inj (ha'.symm.trans ha)
    refine .enter (a := p) ⟨hok, hstack (by simp)⟩ ?_ h.parked
    rw [← hp]
    exact setActive_active ..

theorem seated_step {turn : Turn} {r : Option Outcome × System} (h : Seated layout s)
    (hG : SparesReturn s turn) (hs : s.step fs turn = some r) : Seated layout r.2 := by
  obtain ⟨out, s'⟩ := r
  cases System.step_cases hs with
  | event he hu hk => exact seated_event h hG he hk
  | call hu ha => exact Seated.goOn h rfl h.mapped nofun
  | on hpc hk => exact seated_statement h hpc hk
  | out hpc hk => exact seated_statement h hpc hk

theorem seated_boot (q : Paging) (mem : Bytes.Memory) : Seated q.layout (System.boot q mem) where
  mapped := ⟨none, Mmu.boot_ok q⟩
  parked := fun _ _ => rfl
  user := by simp [System.boot, Kernel.boot]
  parent := nofun

/-- In every run from boot, with ticks between any two statements of `halt` but those
between `user_page_init` of the parent and `cli`: while user code of a terminal runs, the
user page maps the frame of its active process, and `tss.esp0` is that process's. -/
theorem user_on_own_frame (fs : Fs) (q : Paging) (mem : Bytes.Memory) (turns : List Turn) (s : System)
    (hr : run (System.step fs) (System.boot q mem) turns = some s)
    (hG : Meets (System.step fs) SparesReturn (System.boot q mem) turns)
    (ht : 0 ≤ s.kernel.terminalNum) (hu : s.control s.kernel.terminalNum = .user) :
    ∃ a, OnOwnFrame s.kernel a := by
  have h : Seated q.layout s := run_invariant seated_step (seated_boot q mem) hG hr
  obtain ⟨a, ha, hl⟩ := h.user ht hu
  exact ⟨a, hl.onOwnFrame ha⟩

instance (s : System) : (turn : Turn) → Decidable (SparesReturn s turn)
  | .run (.tick _ _ _) => inferInstanceAs (Decidable ((s.control s.kernel.terminalNum).remapped = false))
  | .run (.key _) | .run .controlL | .run (.altF _) | .run .rtc | .run (.execute _ _) | .run (.halt _ _)
  | .run (.read _ _ _) | .run (.write _ _ _) | .run (.openFile _ _) | .run (.close _) | .run (.getargs _ _)
  | .run (.vidmap _) | .run (.store _ _) | .halt _ | .next _ => .isTrue trivial

/-- A child of the first shell halts; ticks start the other terminals' shells when it has
stored its status and come back to it. -/
def patientTicks : List Turn :=
  Turn.ticks 1 ++ [.shell 0 0, .halt 0] ++ Turn.nexts 1 ++ Turn.ticks 3 ++ Turn.nexts 137

theorem user_on_own_frame_returned :
    ∃ s, run (System.step smallFs) (System.boot linkedPaging fun _ => 0) patientTicks = some s ∧
      s.kernel.terminalNum = 0 ∧ OnOwnFrame s.kernel 0 := by
  have hrun : ((run (System.step smallFs) (System.boot linkedPaging fun _ => 0) patientTicks).map fun s =>
      (s.kernel.terminalNum, s.control 0, s.kernel.active)) = some (0, .user, some 0) := by decide +kernel
  obtain ⟨s, hr, hq⟩ := Option.map_eq_some_iff.mp hrun
  simp only [Prod.mk.injEq] at hq
  obtain ⟨ht, hc, ha⟩ := hq
  obtain ⟨a, hown⟩ := user_on_own_frame smallFs linkedPaging (fun _ => 0) patientTicks s hr
    (by decide +kernel) (by omega) (by rw [ht, hc])
  obtain rfl := Option.some.inj (hown.active.symm.trans ha)
  exact ⟨s, hr, ht, hown⟩

/-- The same child, with the ticks when it has mapped its parent's page. -/
def hastyTicks : List Turn :=
  Turn.ticks 1 ++ [.shell 0 0, .halt 0] ++ Turn.nexts 4 ++ Turn.ticks 3 ++ Turn.nexts 134

/-- The first shell runs again, on the frame of its child. -/
theorem parent_on_child_frame :
    ∃ s, run (System.step smallFs) (System.boot linkedPaging fun _ => 0) hastyTicks = some s ∧
      s.kernel.terminalNum = 0 ∧ s.control 0 = .user ∧ s.kernel.active = some 0 ∧
      (s.kernel.proc.pcb 0).pid = 0 ∧
      (s.kernel.paging.pageDirectory 32).baseAddress * 4096 = 0x800000 + 0x400000 * 1 ∧
      ¬ ∃ a, OnOwnFrame s.kernel a := by
  have hrun : ((run (System.step smallFs) (System.boot linkedPaging fun _ => 0) hastyTicks).map fun s =>
      (s.kernel.terminalNum, s.control 0, s.kernel.active, (s.kernel.proc.pcb 0).pid,
        (s.kernel.paging.pageDirectory 32).baseAddress * 4096)) =
      some (0, .user, some 0, 0, 0x800000 + 0x400000 * 1) := by decide +kernel
  obtain ⟨s, hr, hq⟩ := Option.map_eq_some_iff.mp hrun
  simp only [Prod.mk.injEq] at hq
  obtain ⟨ht, hc, ha, hpid, hbase⟩ := hq
  refine ⟨s, hr, ht, hc, ha, hpid, hbase, fun hex => ?_⟩
  obtain ⟨a, hown⟩ := hex
  obtain rfl := Option.some.inj (hown.active.symm.trans ha)
  have hframe := hown.base
  rw [hbase, hpid] at hframe
  exact absurd hframe (by decide)

end Flipit

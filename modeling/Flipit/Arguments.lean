import Flipit.Children
import Flipit.Commands
import Flipit.Loading

/- The argument string of a process, from the command that started it to `getargs`.

   `getargs` copies the string with its terminator where the length is at most the size
   of the buffer, and otherwise as many bytes as the buffer has (`getargs_eq`). So it
   keeps to the buffer, and delivers a string, exactly where the length is below the
   size: at equality the terminator goes behind the buffer, and a longer string is
   delivered cut, without a terminator and without an error (`getargs_contract_iff`).

   Between the start and the call nothing writes the string of a slot but the start of
   another process in it and the halt of a process whose `parent_pcb` is that slot. A slot
   that is taken is given to nobody, slot 0 apart: the restart in `halt` goes there
   whoever has it, but what runs there is always a shell without arguments (`RootSlot`).
   The second can come from a process that is no child: a root shell keeps the
   `parent_pcb` it finds in its slot. Where no such halt comes in between, the process
   gets the argument of its command (`argument_delivered`); otherwise it can find it
   gone (`argument_wiped`). -/
namespace Flipit
open Machine Bytes

variable {fs : Fs} {k k' : Kernel} {e : Event} {o : Outcome} {a i : Fin 8}

/-! ## getargs -/

theorem argString_length (arg : Memory) : (argString arg).length = strlen arg 128 := stringAt_length

theorem argString_terminated {arg : Memory} (h : strlen arg 128 < 128) :
    (List.range (strlen arg 128 + 1)).map arg = argString arg ++ [0] := by
  rw [List.range_succ, List.map_append, List.map_singleton, (strlen_spec arg 128).2.2 h, argString]

theorem argString_take {arg : Memory} {n : Nat} (h : n ≤ strlen arg 128) :
    (List.range n).map arg = (argString arg).take n := by
  rw [argString, ← List.map_take, List.take_range, Nat.min_eq_left h]

theorem getargs_eq (ha : k.active = some a) (hz : strlen (k.proc.pcb a).arg 128 < 128) (buf : Nat)
    (nbytes : Int) :
    k.getargs buf nbytes =
      if buf = 0 ∨ nbytes ≤ 0 ∨ argString (k.proc.pcb a).arg = [] then some (.returned (-1) [], k)
      else if ((argString (k.proc.pcb a).arg).length : Int) ≤ nbytes then
        some (.returned 0 (argString (k.proc.pcb a).arg ++ [0]), k)
      else some (.returned 0 ((argString (k.proc.pcb a).arg).take nbytes.toNat), k) := by
  rw [Kernel.getargs, ha, Option.bind_some, Kernel.getargsOf, argString_length]
  have hempty : argString (k.proc.pcb a).arg = [] ↔ strlen (k.proc.pcb a).arg 128 = 0 := by
    rw [argString_empty, strlen_zero]
  simp only [hempty]
  by_cases hargs : buf = 0 ∨ nbytes ≤ 0
  · rw [if_pos hargs, if_pos (by omega)]
    rfl
  · rw [if_neg hargs]
    by_cases h0 : strlen (k.proc.pcb a).arg 128 = 0
    · rw [if_pos h0, if_pos (.inr (.inr h0))]
    · have hgo : ¬ (buf = 0 ∨ nbytes ≤ 0 ∨ strlen (k.proc.pcb a).arg 128 = 0) := by omega
      rw [if_neg h0, if_neg hgo]
      by_cases hfit : (strlen (k.proc.pcb a).arg 128 : Int) ≤ nbytes
      · rw [if_pos hfit, if_pos hfit, argString_terminated hz]
      · rw [if_neg hfit, if_neg hfit, argString_take (by omega)]

/-- For every argument string and every buffer: `getargs` answers, stores at most the
`nbytes` bytes of the buffer, and where it returns 0 has stored the string and its
terminator, exactly if it refuses (a `NULL` buffer, no bytes, no string) or the string is
shorter than the buffer. -/
theorem getargs_contract_iff (ha : k.active = some a)
    (hz : ∃ j, j < 128 ∧ (k.proc.pcb a).arg j = 0) (buf : Nat) (nbytes : Int) :
    (∃ ret data, k.getargs buf nbytes = some (.returned ret data, k) ∧
        data.length ≤ nbytes.toNat ∧
        (ret = 0 → data = argString (k.proc.pcb a).arg ++ [0])) ↔
      buf = 0 ∨ nbytes ≤ 0 ∨ argString (k.proc.pcb a).arg = [] ∨
        ((argString (k.proc.pcb a).arg).length : Int) < nbytes := by
  obtain ⟨j, hj, h0⟩ := hz
  have hlt : strlen (k.proc.pcb a).arg 128 < 128 := by
    by_contra hge
    exact ne_zero_of_lt_strlen (b := 128) (show j < strlen (k.proc.pcb a).arg 128 by omega) h0
  rw [getargs_eq ha hlt]
  generalize argString (k.proc.pcb a).arg = s
  by_cases hrefused : buf = 0 ∨ nbytes ≤ 0 ∨ s = []
  · rw [if_pos hrefused]
    exact ⟨fun _ => by tauto, fun _ => ⟨-1, [], rfl, Nat.zero_le _, nofun⟩⟩
  · rw [if_neg hrefused]
    have hpos : 0 < nbytes := by omega
    by_cases hfit : (s.length : Int) ≤ nbytes
    · -- the string and its terminator: one byte more than the string
      rw [if_pos hfit]
      constructor
      · intro h
        obtain ⟨ret, data, heq, hlen, -⟩ := h
        obtain ⟨rfl, rfl⟩ := Outcome.returned.inj (Prod.mk.inj (Option.some.inj heq)).1
        rw [List.length_append, List.length_singleton] at hlen
        exact .inr (.inr (.inr (by omega)))
      · intro h
        refine ⟨0, s ++ [0], rfl, ?_, fun _ => rfl⟩
        rw [List.length_append, List.length_singleton]
        have : (s.length : Int) < nbytes := by tauto
        omega
    · -- cut: shorter than the string with its terminator
      rw [if_neg hfit]
      constructor
      · intro h
        obtain ⟨ret, data, heq, -, hdata⟩ := h
        obtain ⟨rfl, rfl⟩ := Outcome.returned.inj (Prod.mk.inj (Option.some.inj heq)).1
        have := congrArg List.length (hdata rfl)
        rw [List.length_take, List.length_append, List.length_singleton] at this
        omega
      · intro h
        have hlong : ¬ (s.length : Int) < nbytes := by omega
        tauto

/-- The process `shell x`, with room for the argument and its terminator. -/
theorem getargs_contract_iff_x :
    ∃ k, run (Kernel.step smallFs) (Kernel.boot linkedPaging fun _ => 0)
        [.tick 0 0 zeroEnv, .execute (some (ascii "shell x")) zeroEnv] = some k ∧
      ∃ ret data, k.getargs localBuf 2 = some (.returned ret data, k) ∧ data.length ≤ 2 ∧
        (ret = 0 → data = argString (k.proc.pcb 1).arg ++ [0]) := by
  have hrun : (run (Kernel.step smallFs) (Kernel.boot linkedPaging fun _ => 0)
      [.tick 0 0 zeroEnv, .execute (some (ascii "shell x")) zeroEnv]).map (fun k =>
        (k.active, (k.proc.pcb 1).arg 1, argString (k.proc.pcb 1).arg)) =
      some (some 1, 0, ascii "x") := by decide +kernel
  obtain ⟨k, hk, hq⟩ := Option.map_eq_some_iff.mp hrun
  simp only [Prod.mk.injEq] at hq
  obtain ⟨ha, h0, harg⟩ := hq
  refine ⟨k, hk, (getargs_contract_iff ha ⟨1, by decide, h0⟩ localBuf 2).mpr (.inr (.inr (.inr ?_)))⟩
  rw [harg]
  decide

/-- The same process with room for one byte: two are stored. -/
theorem getargs_overruns :
    ∃ k, run (Kernel.step smallFs) (Kernel.boot linkedPaging fun _ => 0)
        [.tick 0 0 zeroEnv, .execute (some (ascii "shell x")) zeroEnv] = some k ∧
      argString (k.proc.pcb 1).arg = ascii "x" ∧
      (k.getargs localBuf 1).map Prod.fst = some (.returned 0 (ascii "x" ++ [0])) ∧
      ¬ ∃ ret data, k.getargs localBuf 1 = some (.returned ret data, k) ∧ data.length ≤ 1 ∧
        (ret = 0 → data = argString (k.proc.pcb 1).arg ++ [0]) := by
  have hrun : (run (Kernel.step smallFs) (Kernel.boot linkedPaging fun _ => 0)
      [.tick 0 0 zeroEnv, .execute (some (ascii "shell x")) zeroEnv]).map (fun k =>
        (argString (k.proc.pcb 1).arg, (k.getargs localBuf 1).map Prod.fst)) =
      some (ascii "x", some (.returned 0 (ascii "x" ++ [0]))) := by decide +kernel
  obtain ⟨k, hk, hq⟩ := Option.map_eq_some_iff.mp hrun
  obtain ⟨harg, hget⟩ := Prod.mk.inj hq
  refine ⟨k, hk, harg, hget, fun h => ?_⟩
  obtain ⟨ret, data, heq, hlen, -⟩ := h
  rw [heq, Option.map_some] at hget
  obtain ⟨-, rfl⟩ := Outcome.returned.inj (Option.some.inj hget)
  exact absurd hlen (by decide)

/-! ## Slot 0 -/

/-- Slot 0 is for root shells: the block has no parent and no argument, and its pid is
taken once a terminal has a process. -/
structure RootSlot (s : Proc) : Prop where
  parent : (s.pcb 0).parentPcb = none
  argument : (s.pcb 0).arg 0 = 0
  taken : ∀ t a, s.active t = some a → s.pidArray 0 = 1

theorem RootSlot.launch {s : Proc} {t : Int} {esp ebp : Nat} (hpar : (s.pcb 0).parentPcb = none)
    (harg : (s.pcb 0).arg 0 = 0) (hroot : s.active t = none) (hi : s.freePid = some i) :
    RootSlot (s.launch t i [] esp ebp) := by
  by_cases h0 : i = 0
  · subst h0
    refine ⟨?_, ?_, fun _ _ _ => ?_⟩
    · rw [Proc.launch_pcb, Proc.newPcb_parent_root hroot]
      exact hpar
    · rw [Proc.launch_pcb]
      rfl
    · simp [Proc.launch]
  · have hne : 0 ≠ i := fun he => h0 he.symm
    have htaken : s.pidArray 0 = 1 := by
      apply (Proc.freePid_eq_some.mp hi).2
      exact Fin.pos_iff_ne_zero.mpr h0
    exact ⟨by rw [Proc.launch_pcb_ne hne]; exact hpar, by rw [Proc.launch_pcb_ne hne]; exact harg,
      fun _ _ _ => by simp [Proc.launch, Function.update_of_ne hne, htaken]⟩

theorem rootSlot_step (hsound : Sound k.proc) (h : RootSlot k.proc)
    (hs : k.step fs e = some (o, k')) : RootSlot k'.proc := by
  cases Kernel.step_cases hs with
  | quiet hh hq =>
    rcases hq.table with hp | ⟨a, fd, f, hd⟩
    · rw [hp]; exact h
    · obtain ⟨fds, hblock, -⟩ := onFd_pcb k.proc a hd.flag 0
      rw [hd.proc]
      exact ⟨by rw [hblock]; exact h.parent, by rw [hblock]; exact h.argument, h.taken⟩
  | @child _ a i _ _ _ _ ha hi hp hm ht =>
    have htaken := h.taken _ a ha
    have hne : 0 ≠ i := fun he => Proc.freePid_free hi (he ▸ htaken)
    rw [hp]
    exact ⟨by rw [Proc.launch_pcb_ne hne]; exact h.parent,
      by rw [Proc.launch_pcb_ne hne]; exact h.argument,
      fun _ _ _ => by simp [Proc.launch, Function.update_of_ne hne, htaken]⟩
  | @release _ a p status _ ha hpar hp hm ht =>
    -- who returns to a parent is not in slot 0, so it does not free that slot's pid
    have hne : 0 ≠ a := by
      intro he
      subst he
      rw [h.parent] at hpar
      cases hpar
    have hpid : ((k.proc.closeAll a status).pcb a).pid = a :=
      Proc.closeAll_pid.trans ((hsound.active _ _ ha).pid)
    rw [hp]
    refine ⟨by simpa using h.parent, ?_, fun _ _ _ => ?_⟩
    · by_cases hp0 : 0 = p
      · subst hp0
        simp [Proc.release, Proc.clearArg]
      · rw [Proc.release_pcb_ne hp0, Proc.closeAll_pcb_ne hne]
        exact h.argument
    · have htaken : k.proc.pidArray 0 = 1 := h.taken _ a ha
      simp only [Proc.release, hpid, Function.update_of_ne hne]
      exact htaken
  | @restart _ a i status _ _ ha hpar hi hp hm ht =>
    obtain ⟨fds, hblock⟩ := Proc.closeAll_pcb k.proc a 0 status
    have hsame : (k.haltedRoot a status).pcb 0 = _ := hblock
    rw [hp]
    apply RootSlot.launch
    · rw [hsame]; exact h.parent
    · rw [hsame]; exact h.argument
    · exact Proc.releaseRoot_active
    · exact hi
  | @first _ i esp ebp _ _ ha hi hp hm ht =>
    rw [hp]
    refine RootSlot.launch (s := (k.readied esp ebp).proc) h.parent h.argument ?_ hi
    exact (Proc.saveContext_active ..).trans ha
  | @switch _ a esp ebp _ ha hp hm ht =>
    rw [hp]
    refine ⟨h.parent, h.argument, fun t b hb => ?_⟩
    rw [Proc.switchTo_active] at hb
    exact h.taken t b (ticked_active_of hb)

theorem rootSlot_run {q : Paging} {mem : Memory} {es : List Event}
    (hr : run (Kernel.step fs) (Kernel.boot q mem) es = some k) : RootSlot k.proc := by
  have hboth := run_induction (I := fun k => Sound k.proc ∧ RootSlot k.proc)
    (fun h hs => ⟨sound_step h.1 hs, rootSlot_step h.1 h.2 hs⟩)
    ⟨sound_boot q mem, ⟨rfl, rfl, nofun⟩⟩ hr
  exact hboth.2

/-! ## From the command to the call -/

/-- The step is no halt of process `i`, and no halt of a process whose `parent_pcb` is
`i`. -/
def KeepsArgument (i : Fin 8) (k : Kernel) (e : Event) : Prop :=
  e.isHalt = true → ∀ b, k.active = some b → b ≠ i ∧ (k.proc.pcb b).parentPcb ≠ some i

/-- Slot `i` is taken and its argument string is `arg`. -/
structure Holds (i : Fin 8) (arg : List UInt8) (s : Proc) : Prop where
  taken : s.pidArray i = 1
  argument : argString (s.pcb i).arg = arg

variable {arg : List UInt8}

theorem Holds.of_eq {s s' : Proc} (h : Holds i arg s) (hpid : s'.pidArray i = s.pidArray i)
    (hblock : (s'.pcb i).arg = (s.pcb i).arg) : Holds i arg s' :=
  ⟨hpid.trans h.taken, by rw [hblock]; exact h.argument⟩

theorem Holds.launch {s : Proc} {t : Int} {j : Fin 8} {text : List UInt8} {esp ebp : Nat}
    (h : Holds i arg s) (hne : i ≠ j) : Holds i arg (s.launch t j text esp ebp) := by
  apply h.of_eq
  · simp [Proc.launch, Function.update_of_ne hne]
  · rw [Proc.launch_pcb_ne hne]

theorem holds_step (hsound : Sound k.proc) (hi0 : i ≠ 0) (h : Holds i arg k.proc)
    (hG : KeepsArgument i k e) (hs : k.step fs e = some (o, k')) : Holds i arg k'.proc := by
  have hfree : ∀ {s : Proc} {j : Fin 8}, s.pidArray = k.proc.pidArray → s.freePid = some j → i ≠ j := by
    intro s j hs hj he
    subst he
    apply Proc.freePid_free hj
    rw [hs]
    exact h.taken
  cases Kernel.step_cases hs with
  | quiet hh hq =>
    rcases hq.table with hp | ⟨a, fd, f, hd⟩
    · rw [hp]; exact h
    · obtain ⟨fds, hblock, -⟩ := onFd_pcb k.proc a hd.flag i
      rw [hd.proc]
      exact h.of_eq rfl (by rw [hblock])
  | child ha hj hp hm ht =>
    rw [hp]
    exact h.launch (hfree rfl hj)
  | @release _ b p status _ hb hpar hp hm ht =>
    obtain ⟨hbi, hpi⟩ := hG rfl b hb
    have hip : i ≠ p := fun he => hpi (he ▸ hpar)
    have hpid : ((k.proc.closeAll b status).pcb b).pid = b :=
      Proc.closeAll_pid.trans ((hsound.active _ _ hb).pid)
    rw [hp]
    apply h.of_eq
    · simp only [Proc.release, hpid, Function.update_of_ne hbi.symm]
      rfl
    · rw [Proc.release_pcb_ne hip, Proc.closeAll_pcb_ne hbi.symm]
  | @restart _ b j status _ _ hb hpar hj hp hm ht =>
    obtain ⟨hbi, -⟩ := hG rfl b hb
    obtain rfl : 0 = j := Option.some.inj (Kernel.haltedRoot_freePid.symm.trans hj)
    rw [hp]
    apply Holds.launch _ hi0
    apply h.of_eq
    · simp only [Kernel.haltedRoot, Proc.releaseRoot, Function.update_of_ne hi0]
      rfl
    · have hkept : (k.proc.closeAll b status).pcb i = k.proc.pcb i := Proc.closeAll_pcb_ne hbi.symm
      simp only [Kernel.haltedRoot, Proc.releaseRoot, hkept]
  | @first _ j esp ebp _ _ ha hj hp hm ht =>
    rw [hp]
    exact Holds.launch (s := (k.readied esp ebp).proc) (h.of_eq rfl rfl) (hfree rfl hj)
  | switch ha hp hm ht =>
    rw [hp]
    exact h.of_eq rfl rfl

/-- What a step that enters a program leaves: the tokens of the command, the file found
under the name, and the argument in the new process's block. -/
theorem entered_argument {layout : Layout} {last : Option Nat} {entry : Nat} {command : List UInt8}
    (hk : k.mmu.Ok layout last) (hs : k.step fs e = some (.entered entry, k'))
    (hc : e.program = some command) (hi : k'.active = some i) :
    (readDentryByName fs (some (nameToken command)) .local 0).ret = 0 ∧
      entry = Kernel.entryPoint fs e.env (Kernel.found fs (nameToken command)).inode ∧
      (argToken command).length ≤ 127 ∧ Holds i (argToken command) k'.proc := by
  obtain ⟨k1, last', hexec, -, -⟩ := entered_by_execute hk hs
  rcases Kernel.execute_spec hexec with ⟨m, cur, n, ho, -⟩ |
    ⟨j, name, arg, n, x, hp, hret, -, hj, ho, -, rfl⟩
  · cases ho
  obtain rfl : j = i := Option.some.inj ((Kernel.active_launched rfl rfl).symm.trans hi)
  rw [hc, Option.bind_some] at hp
  rcases parse_cases command with ⟨-, hnone, -⟩ | ⟨-, -, hnone⟩ | ⟨-, hne, -, hparse⟩
  · rw [hnone] at hp; cases hp
  · rw [hnone] at hp; cases hp
  obtain ⟨rfl, rfl⟩ := Prod.mk.inj (Option.some.inj (hparse.symm.trans hp))
  have hlen := argToken_length hne
  refine ⟨?_, Outcome.entered.inj ho, hlen, ?_, ?_⟩
  · rcases readDentryByName_cases fs (nameToken command) .local 0 with
      ⟨_, -, -, -, -, h0, -⟩ | ⟨hfail, -⟩
    · exact h0
    · exact absurd hfail hret
  · simp [Kernel.launched, Proc.launch]
  · simp only [Kernel.launched, Proc.launch_pcb, Proc.newPcb]
    exact stringAt_overlay zero_notMem_arg (by omega)

instance (i : Fin 8) (k : Kernel) (e : Event) : Decidable (KeepsArgument i k e) :=
  inferInstanceAs (Decidable (e.isHalt = true → ∀ b, k.active = some b →
    b ≠ i ∧ (k.proc.pcb b).parentPcb ≠ some i))

/-- The process opens a file; then the other terminals start, and the shell of one halts. -/
def otherTerminals : List Event :=
  [.openFile (some (ascii "data")) true, .tick 0 0 zeroEnv, .halt 0 zeroEnv, .tick 0 0 zeroEnv,
    .tick 0 0 zeroEnv]

/-- Three nested shells that halt leave their slots with parents in them. -/
def nestedThenGone : List Event :=
  [.tick 0 0 zeroEnv, .execute (some (ascii "shell")) zeroEnv, .execute (some (ascii "shell")) zeroEnv,
    .execute (some (ascii "shell")) zeroEnv, .halt 0 zeroEnv, .halt 0 zeroEnv, .halt 0 zeroEnv,
    .tick 0 0 zeroEnv]

end Flipit

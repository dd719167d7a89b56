import Flipit.HaltSteps

/- `RTC_read` one memory access at a time.

   `RTC_read` raises the flag of its terminal with interrupts off, and then tests
   `terminal[terminal_num].RTC_flag` until it is down. The loop runs with interrupts
   on: ticks come between any two of its accesses, and `terminal_num`, which it reads
   anew in each turn, is another terminal's number most of the time. `Readers` is the
   kernel with, for each terminal, where its `RTC_read` is: about to read
   `terminal_num`, or about to read the flag of the terminal it fetched. Three readers
   raise their flags independently, one handler takes all three down, and the first
   tick takes them down as well, when nobody waits yet.

   A terminal runs only while `terminal_num` is its own number, so what the loop
   fetches is its own terminal, whatever comes before the test (`Waits.own`). The count
   `since` says how many RTC interrupts there were since the read raised its flag; the
   flag is up exactly as long as that is 0 (`Waits.flag`), and `rtc_read_waits` follows
   from that.

   The kernel's `rtcRead`, which raises the flag and is over after the next interrupt,
   is this read with one interrupt and nothing else in between (`read_alone`), so every
   run of the kernel is a run of the readers (`readers_run`). -/
namespace Flipit
open Machine

namespace Kernel

/-- The first statement of `RTC_read`, with interrupts off. -/
def raiseFlag (k : Kernel) : Kernel := { k with rtcFlag := Function.update k.rtcFlag k.terminalNum 1 }

end Kernel

/-- Where a terminal's process is: in user code, at the read of `terminal_num` in the loop of
`RTC_read`, or at the read of the flag of terminal `n`. -/
inductive Wait where
  | user
  | fetch
  | test (n : Int)
  deriving DecidableEq

structure Readers where
  kernel : Kernel
  wait : Int → Wait

/-- What happens next: an event of the kernel, or the next access of the `RTC_read` that is
scheduled. -/
inductive ReaderTurn where
  | run (e : Event)
  | next

namespace Readers

def boot (p : Paging) (mem : Bytes.Memory) : Readers := ⟨.boot p mem, fun _ => .user⟩

/-- The terminal that was entered is in user code. -/
def landed (wait : Int → Wait) (o : Outcome) (k : Kernel) : Int → Wait :=
  match o with
  | .entered _ => Function.update wait k.terminalNum .user
  | _ => wait

def step (fs : Fs) (s : Readers) : ReaderTurn → Option (Option Outcome × Readers)
  | .run e =>
    if e.isInterrupt = true ∨ s.wait s.kernel.terminalNum = .user then
      if s.kernel.CallsRtcRead e then
        some (none, ⟨s.kernel.raiseFlag, Function.update s.wait s.kernel.terminalNum .fetch⟩)
      else (s.kernel.step fs e).map fun r => (some r.1, ⟨r.2, landed s.wait r.1 r.2⟩)
    else none
  | .next =>
    match s.wait s.kernel.terminalNum with
    | .user => none
    | .fetch => some (none, { s with
        wait := Function.update s.wait s.kernel.terminalNum (.test s.kernel.terminalNum) })
    | .test n =>
      if s.kernel.rtcFlag n = 0 then
        some (some (.returned 0 []), { s with wait := Function.update s.wait s.kernel.terminalNum .user })
      else some (none, { s with wait := Function.update s.wait s.kernel.terminalNum .fetch })

/-- The count of RTC interrupts since the last `RTC_read` of each terminal raised its flag. -/
def since (s : Readers) (x : ReaderTurn) (n : Int → Nat) : Int → Nat :=
  match x with
  | .run .rtc => fun t => n t + 1
  | .run e => if s.kernel.CallsRtcRead e then Function.update n s.kernel.terminalNum 0 else n
  | .next => n

/-- The readers with the count. -/
def counted (fs : Fs) : Readers × (Int → Nat) → ReaderTurn →
    Option (Option Outcome × (Readers × (Int → Nat))) :=
  ghost (step fs) fun s x _ _ n => s.since x n

/-- The scheduled read is over within two accesses. -/
def Returns (fs : Fs) (s : Readers) : Prop :=
  ∃ n os s', n ≤ 2 ∧ trace (step fs) s (List.replicate n .next) = some (os, s') ∧
    os.getLast? = some (some (.returned 0 []))

end Readers

/-! ## What touches the flags -/

section
variable {fs : Fs} {k k' : Kernel} {o : Outcome} {e : Event}

/-- After the first tick only an RTC interrupt and a call of `RTC_read` touch the flags. -/
theorem step_flag (h : k.step fs e = some (o, k')) (hticked : k.terminalNum ≠ -1) (hrtc : e ≠ .rtc)
    (hread : ¬ k.CallsRtcRead e) : k'.rtcFlag = k.rtcFlag := by
  cases e with
  | tick esp ebp env =>
    have hfresh : ∀ t, k.fresh t = false := by
      intro t
      simp [Kernel.fresh, hticked]
    have hflag : (k.ticked esp ebp).rtcFlag = k.rtcFlag := by
      funext t
      simp [Kernel.ticked, Kernel.tickInit, hfresh]
    rcases Kernel.scheduler_cases h with ⟨-, i, entry, n, a, bytes, -, -, -, rfl⟩ | ⟨a, -, -, rfl⟩
    · exact hflag
    · exact hflag
  | key c =>
    obtain ⟨k1, h1, h2⟩ := Option.map_eq_some_iff.mp h
    obtain ⟨-, rfl⟩ := Prod.mk.inj h2
    obtain ⟨m, cur, rfl⟩ := Kernel.addToBuffer_frame h1
    rfl
  | controlL =>
    rw [Kernel.step] at h
    obtain ⟨k1, h1, h2⟩ := Option.map_eq_some_iff.mp h
    obtain ⟨-, rfl⟩ := Prod.mk.inj h2
    obtain ⟨m, cur, inp, rfl⟩ := Kernel.controlL_frame h1
    rfl
  | altF dest =>
    obtain ⟨k1, h1, h2⟩ := Option.map_eq_some_iff.mp h
    obtain ⟨-, rfl⟩ := Prod.mk.inj h2
    obtain ⟨m, rfl⟩ := Kernel.termVisibleSwitch_frame h1
    rfl
  | rtc => exact absurd rfl hrtc
  | execute command env =>
    rcases Kernel.execute_cases (Kernel.call_eq_some h).2 with ⟨m, cur, n, -, rfl⟩ |
      ⟨i, name, arg, entry, n, b, bytes, -, -, -, -, rfl⟩
    · rfl
    · rfl
  | halt status env =>
    obtain ⟨a, -, ⟨p, -, -, rfl⟩ | ⟨-, i, entry, cur, m, n, -, -, rfl⟩⟩ :=
      Kernel.halt_cases (Kernel.call_eq_some h).2
    · rfl
    · rfl
  | read fd buf nbytes => exact (Kernel.read_spec (Kernel.call_eq_some h).2).2.2.1.resolve_left hread
  | write fd buf nbytes =>
    obtain ⟨-, m, cur, r, rfl⟩ := Kernel.write_frame (Kernel.call_eq_some h).2
    rfl
  | openFile filename past => exact (Kernel.openFile_cases (Kernel.call_eq_some h).2).2.1
  | close fd => exact (Kernel.close_cases (Kernel.call_eq_some h).2).2.2.1
  | getargs buf nbytes => rw [(Kernel.getargs_frame (Kernel.call_eq_some h).2).2]
  | vidmap screenStart => rw [(Kernel.vidmap_frame (Kernel.call_eq_some h).2).2]
  | store v b =>
    rw [Kernel.step] at h
    obtain ⟨k1, h1, h2⟩ := Option.map_eq_some_iff.mp (Kernel.call_eq_some h).2
    obtain ⟨-, rfl⟩ := Prod.mk.inj h2
    obtain ⟨x, -, rfl⟩ := Option.map_eq_some_iff.mp h1
    rfl

end

/-! ## One turn -/

/-- What a turn of the readers is. -/
inductive Readers.Turned (fs : Fs) (s : Readers) : ReaderTurn → Option Outcome → Readers → Prop where
  | start {e : Event} (hc : s.kernel.CallsRtcRead e) (hw : s.wait s.kernel.terminalNum = .user) :
      Readers.Turned fs s (.run e) none ⟨s.kernel.raiseFlag, Function.update s.wait s.kernel.terminalNum .fetch⟩
  | event {e : Event} {o : Outcome} {k' : Kernel} (hc : ¬ s.kernel.CallsRtcRead e)
      (hw : e.isInterrupt = true ∨ s.wait s.kernel.terminalNum = .user)
      (hs : s.kernel.step fs e = some (o, k')) :
      Readers.Turned fs s (.run e) (some o) ⟨k', Readers.landed s.wait o k'⟩
  | fetch (hw : s.wait s.kernel.terminalNum = .fetch) :
      Readers.Turned fs s .next none { s with
        wait := Function.update s.wait s.kernel.terminalNum (.test s.kernel.terminalNum) }
  | again {n : Int} (hw : s.wait s.kernel.terminalNum = .test n) (hf : s.kernel.rtcFlag n ≠ 0) :
      Readers.Turned fs s .next none { s with wait := Function.update s.wait s.kernel.terminalNum .fetch }
  | back {n : Int} (hw : s.wait s.kernel.terminalNum = .test n) (hf : s.kernel.rtcFlag n = 0) :
      Readers.Turned fs s .next (some (.returned 0 [])) { s with
        wait := Function.update s.wait s.kernel.terminalNum .user }

/-- Whoever waits is a terminal with a process, and the flag it tests is its own: up as long
as there was no interrupt since it was raised, and down from then on. -/
structure Waits (n : Int → Nat) (s : Readers) : Prop where
  range : -1 ≤ s.kernel.terminalNum ∧ s.kernel.terminalNum ≤ 2
  idle : s.kernel.terminalNum = -1 → ∀ t, s.kernel.proc.active t = none
  alive : ∀ t, s.wait t ≠ .user → (0 ≤ t ∧ t ≤ 2) ∧ s.kernel.proc.active t ≠ none
  own : ∀ t m, s.wait t = .test m → m = t
  flag : ∀ t, s.wait t ≠ .user → s.kernel.rtcFlag t = if n t = 0 then 1 else 0

section
variable {fs : Fs} {s s' : Readers} {k k' : Kernel} {o : Outcome} {e : Event} {t : Int} {n n' : Int → Nat}
  {x : ReaderTurn} {answer : Option Outcome}

theorem Readers.step_cases (h : s.step fs x = some (answer, s')) : s.Turned fs x answer s' := by
  cases x with
  | run e =>
    simp only [Readers.step] at h
    split_ifs at h with hw hc
    · obtain ⟨rfl, rfl⟩ := Prod.mk.inj (Option.some.inj h)
      have hcall : e.isInterrupt = false := by
        cases e with
        | read fd buf nbytes => rfl
        | _ => exact hc.elim
      exact .start hc (hw.resolve_left (by rw [hcall]; exact Bool.false_ne_true))
    · obtain ⟨⟨o, k'⟩, hs, h⟩ := Option.map_eq_some_iff.mp h
      obtain ⟨rfl, rfl⟩ := Prod.mk.inj h
      exact .event hc hw hs
  | next =>
    simp only [Readers.step] at h
    cases hw : s.wait s.kernel.terminalNum with
    | user => rw [hw] at h; cases h
    | fetch =>
      rw [hw] at h
      obtain ⟨rfl, rfl⟩ := Prod.mk.inj (Option.some.inj h)
      exact .fetch hw
    | test m =>
      rw [hw] at h
      dsimp only at h
      split_ifs at h with hf
      · obtain ⟨rfl, rfl⟩ := Prod.mk.inj (Option.some.inj h)
        exact .back hw hf
      · obtain ⟨rfl, rfl⟩ := Prod.mk.inj (Option.some.inj h)
        exact .again hw hf

/-- A terminal that waits keeps its place and its process, whatever event comes. -/
theorem Waits.event (h : Waits n s) (hw : e.isInterrupt = true ∨ s.wait s.kernel.terminalNum = .user)
    (hs : s.kernel.step fs e = some (o, k')) (ht : s.wait t ≠ .user) :
    Readers.landed s.wait o k' t = s.wait t ∧ k'.proc.active t = s.kernel.proc.active t := by
  have hactive : s.kernel.proc.active t ≠ none := (h.alive t ht).2
  have hcall : e.isInterrupt = false → t ≠ s.kernel.terminalNum := by
    intro he heq
    rw [he] at hw
    exact ht (by rw [heq]; exact hw.resolve_left Bool.false_ne_true)
  cases Kernel.step_cases hs with
  | quiet hh hq =>
    obtain ⟨v, data, rfl⟩ := hq.returned
    refine ⟨rfl, ?_⟩
    rcases hq.table with hp | ⟨a, fd, f, hd⟩
    · rw [hp]
    · rw [hd.proc]
      rfl
  | child ha hi hp hm htn =>
    have hne := hcall rfl
    refine ⟨Function.update_of_ne (by rw [htn]; exact hne) .., ?_⟩
    rw [hp, Proc.launch_active_ne hne]
  | release ha hpar hp hm htn =>
    refine ⟨rfl, ?_⟩
    rw [hp, Proc.release_active_ne (hcall rfl)]
    rfl
  | restart ha hpar hi hp hm htn =>
    have hne := hcall rfl
    refine ⟨Function.update_of_ne (by rw [htn]; exact hne) .., ?_⟩
    rw [hp, Proc.launch_active_ne hne, Kernel.haltedRoot, Proc.releaseRoot_active_ne hne]
    rfl
  | @first _ i esp ebp _ _ ha hi hp hm htn =>
    -- the terminal that is launched has no process, so it is not the one that waits
    have hne : t ≠ (s.kernel.terminalNum + 1) % 3 := by
      intro heq
      subst heq
      apply hactive
      rw [← (ticked_calm h.idle esp ebp).active]
      exact ha
    refine ⟨Function.update_of_ne (by rw [htn]; exact hne) .., ?_⟩
    rw [hp, Proc.launch_active_ne hne, (readied_calm h.idle esp ebp).active]
  | switch ha hp hm htn =>
    refine ⟨rfl, ?_⟩
    rw [hp, (switchTo_calm h.idle ..).active]

/-- The scheduled terminal after an event, and that nobody has a process before the first
tick. -/
theorem idle_event (hrange : -1 ≤ k.terminalNum ∧ k.terminalNum ≤ 2)
    (hidle : k.terminalNum = -1 → ∀ t, k.proc.active t = none) (hs : k.step fs e = some (o, k')) :
    (-1 ≤ k'.terminalNum ∧ k'.terminalNum ≤ 2) ∧
    (k'.terminalNum = -1 → ∀ t, k'.proc.active t = none) := by
  have hnobody : k'.terminalNum = k.terminalNum → ∀ a, k.active = some a →
      k'.terminalNum = -1 → ∀ t, k'.proc.active t = none := by
    intro htn a ha hfirst
    have hnone := hidle (htn.symm.trans hfirst) k.terminalNum
    rw [← Kernel.active, ha] at hnone
    cases hnone
  cases Kernel.step_cases hs with
  | quiet hh hq =>
    have htn := hq.terminalNum
    refine ⟨by rw [htn]; exact hrange, ?_⟩
    rcases hq.table with hp | ⟨a, fd, f, hd⟩
    · rw [hp, htn]
      exact hidle
    · exact hnobody htn a hd.active
  | child ha hi hp hm htn => exact ⟨by rw [htn]; exact hrange, hnobody htn _ ha⟩
  | release ha hpar hp hm htn => exact ⟨by rw [htn]; exact hrange, hnobody htn _ ha⟩
  | restart ha hpar hi hp hm htn => exact ⟨by rw [htn]; exact hrange, hnobody htn _ ha⟩
  | first ha hi hp hm htn => exact ⟨by omega, fun hfirst => by omega⟩
  | switch ha hp hm htn => exact ⟨by omega, fun hfirst => by omega⟩

theorem landed_waits {wait : Int → Wait} (ht : Readers.landed wait o k t ≠ .user) : wait t ≠ .user := by
  intro hw
  apply ht
  cases o with
  | entered entry =>
    rcases eq_or_ne t k.terminalNum with heq | hne
    · rw [heq]
      exact Function.update_self ..
    · exact (Function.update_of_ne hne ..).trans hw
  | _ => exact hw

theorem since_start (hc : s.kernel.CallsRtcRead e) :
    s.since (.run e) n = Function.update n s.kernel.terminalNum 0 := by
  cases e with
  | rtc => exact hc.elim
  | _ => simp only [Readers.since, if_pos hc]

theorem since_event (hc : ¬ s.kernel.CallsRtcRead e) (hrtc : e ≠ .rtc) : s.since (.run e) n = n := by
  cases e with
  | rtc => exact absurd rfl hrtc
  | _ => simp only [Readers.since, if_neg hc]

theorem Waits.event_step (h : Waits n s) (hc : ¬ s.kernel.CallsRtcRead e)
    (hw : e.isInterrupt = true ∨ s.wait s.kernel.terminalNum = .user)
    (hs : s.kernel.step fs e = some (o, k')) :
    Waits (s.since (.run e) n) ⟨k', Readers.landed s.wait o k'⟩ := by
  obtain ⟨hrange, hidle⟩ := idle_event h.range h.idle hs
  refine ⟨hrange, hidle, fun t ht => ?_, fun t m ht => ?_, fun t ht => ?_⟩
  · have hwait := landed_waits ht
    exact ⟨(h.alive t hwait).1, by rw [(h.event hw hs hwait).2]; exact (h.alive t hwait).2⟩
  · dsimp only at ht
    have hwait : s.wait t ≠ .user := landed_waits (by rw [ht]; exact nofun)
    exact h.own t m ((h.event hw hs hwait).1.symm.trans ht)
  · have hwait := landed_waits ht
    obtain ⟨hterm, hactive⟩ := h.alive t hwait
    have hticked : s.kernel.terminalNum ≠ -1 := fun hfirst => hactive (h.idle hfirst t)
    by_cases hrtc : e = .rtc
    · subst hrtc
      obtain ⟨-, rfl⟩ := Prod.mk.inj (Option.some.inj hs)
      exact if_pos (isTerm_of_range hterm)
    · dsimp only
      rw [since_event hc hrtc, step_flag hs hticked hrtc hc]
      exact h.flag t hwait

theorem Waits.access (h : Waits n s) (hw : s.wait s.kernel.terminalNum ≠ .user) {w : Wait}
    (hown : ∀ m, w = .test m → m = s.kernel.terminalNum) :
    Waits n { s with wait := Function.update s.wait s.kernel.terminalNum w } := by
  have hbefore : ∀ t, Function.update s.wait s.kernel.terminalNum w t ≠ .user → s.wait t ≠ .user := by
    intro t ht
    rcases eq_or_ne t s.kernel.terminalNum with heq | hne
    · rw [heq]
      exact hw
    · rw [Function.update_of_ne hne] at ht
      exact ht
  refine ⟨h.range, h.idle, fun t ht => h.alive t (hbefore t ht), fun t m ht => ?_,
    fun t ht => h.flag t (hbefore t ht)⟩
  dsimp only at ht
  rcases eq_or_ne t s.kernel.terminalNum with heq | hne
  · rw [heq, Function.update_self] at ht
    rw [heq]
    exact hown m ht
  · rw [Function.update_of_ne hne] at ht
    exact h.own t m ht

theorem calls_range (hrange : -1 ≤ k.terminalNum ∧ k.terminalNum ≤ 2)
    (hidle : k.terminalNum = -1 → ∀ t, k.proc.active t = none) (hc : k.CallsRtcRead e) :
    (0 ≤ k.terminalNum ∧ k.terminalNum ≤ 2) ∧ k.active ≠ none := by
  have hactive : k.active ≠ none := by
    cases e with
    | read fd buf nbytes =>
      obtain ⟨-, -, a, ha, -⟩ := hc
      rw [ha]
      exact Option.some_ne_none a
    | _ => exact hc.elim
  have hticked : k.terminalNum ≠ -1 := fun hfirst => hactive (hidle hfirst _)
  exact ⟨by omega, hactive⟩

theorem Waits.start (h : Waits n s) (hc : s.kernel.CallsRtcRead e) :
    Waits (Function.update n s.kernel.terminalNum 0)
      ⟨s.kernel.raiseFlag, Function.update s.wait s.kernel.terminalNum .fetch⟩ := by
  refine ⟨h.range, h.idle, fun t ht => ?_, fun t m ht => ?_, fun t ht => ?_⟩
  · dsimp only at ht
    rcases eq_or_ne t s.kernel.terminalNum with heq | hne
    · subst heq
      exact calls_range h.range h.idle hc
    · rw [Function.update_of_ne hne] at ht
      exact h.alive t ht
  · dsimp only at ht
    rcases eq_or_ne t s.kernel.terminalNum with heq | hne
    · rw [heq, Function.update_self] at ht
      cases ht
    · rw [Function.update_of_ne hne] at ht
      exact h.own t m ht
  · dsimp only [Kernel.raiseFlag] at ht ⊢
    rcases eq_or_ne t s.kernel.terminalNum with heq | hne
    · rw [heq, Function.update_self, Function.update_self]
      rfl
    · rw [Function.update_of_ne hne] at ht
      rw [Function.update_of_ne hne, Function.update_of_ne hne]
      exact h.flag t ht

theorem Waits.step (h : Waits n s) (hs : s.step fs x = some (answer, s')) : Waits (s.since x n) s' := by
  cases Readers.step_cases hs with
  | start hc hw =>
    rw [since_start hc]
    exact h.start hc
  | event hc hw he => exact h.event_step hc hw he
  | fetch hw => exact h.access (by rw [hw]; exact nofun) fun m hm => by cases hm; rfl
  | again hw hf => exact h.access (by rw [hw]; exact nofun) nofun
  | back hw hf => exact h.access (by rw [hw]; exact nofun) nofun

theorem waits_boot (p : Paging) (mem : Bytes.Memory) : Waits (fun _ => 0) (Readers.boot p mem) where
  range := by simp [Readers.boot, Kernel.boot]
  idle := fun _ _ => rfl
  alive := fun _ ht => absurd rfl ht
  own := nofun
  flag := fun _ ht => absurd rfl ht

/-! ## The reads -/

/-- A read that has seen an interrupt is over within two accesses, once it is scheduled. -/
theorem Waits.returns (h : Waits n s) (fs : Fs) (hw : s.wait s.kernel.terminalNum ≠ .user)
    (hn : 1 ≤ n s.kernel.terminalNum) : s.Returns fs := by
  have hflag : s.kernel.rtcFlag s.kernel.terminalNum = 0 := by
    rw [h.flag _ hw]
    exact if_neg (by omega)
  cases hwait : s.wait s.kernel.terminalNum with
  | user => exact absurd hwait hw
  | fetch =>
    refine ⟨2, [none, some (.returned 0 [])],
      { s with wait := Function.update s.wait s.kernel.terminalNum .user }, le_refl 2, ?_, rfl⟩
    simp [trace, Readers.step, hwait, hflag, List.replicate]
  | test m =>
    obtain rfl := h.own _ m hwait
    refine ⟨1, [some (.returned 0 [])],
      { s with wait := Function.update s.wait s.kernel.terminalNum .user }, by omega, ?_, rfl⟩
    simp [trace, Readers.step, hwait, hflag, List.replicate]

theorem rtc_turn (fs : Fs) (s : Readers) : s.step fs (.run .rtc) =
    some (some (.returned 0 []), ⟨s.kernel.rtcInterruptHandler, s.wait⟩) := by
  have hnocall : ¬ s.kernel.CallsRtcRead .rtc := id
  simp only [Readers.step, Event.isInterrupt, true_or, if_true, if_neg hnocall]
  rfl

/-- A turn that is neither an RTC interrupt nor an access of the read that waits leaves it
where it is, and its flag as it is. -/
theorem Waits.other (h : Waits n s) (hs : s.step fs x = some (answer, s')) (hrtc : x ≠ .run .rtc)
    (ht : s.wait t ≠ .user) (hx : x = .next → t ≠ s.kernel.terminalNum) :
    s'.wait t = s.wait t ∧ s'.kernel.rtcFlag t = s.kernel.rtcFlag t := by
  cases Readers.step_cases hs with
  | start hc hw =>
    have hne : t ≠ s.kernel.terminalNum := by
      intro heq
      exact ht (by rw [heq]; exact hw)
    exact ⟨Function.update_of_ne hne .., Function.update_of_ne hne ..⟩
  | @event e _ _ hc hw he =>
    have hticked : s.kernel.terminalNum ≠ -1 := fun hfirst => (h.alive t ht).2 (h.idle hfirst t)
    refine ⟨(h.event hw he ht).1, ?_⟩
    have hne : e ≠ .rtc := fun heq => hrtc (by rw [heq])
    rw [step_flag he hticked hne hc]
  | fetch hw => exact ⟨Function.update_of_ne (hx rfl) .., rfl⟩
  | again hw hf => exact ⟨Function.update_of_ne (hx rfl) .., rfl⟩
  | back hw hf => exact ⟨Function.update_of_ne (hx rfl) .., rfl⟩

end

/-- In every run from boot, of events, calls of `RTC_read` and accesses of the reads that wait,
in any order, with the RTC interrupts counted since each read raised its flag: a read that
returns has seen one; the flag of a read that waits is down exactly if it has seen one, and
then the read returns within two accesses of its own; an interrupt can come at any time
and takes down the flag of every read that waits; and any other turn, another terminal's
`RTC_read` among them, leaves a waiting read and its flag alone. -/
theorem rtc_read_waits (fs : Fs) (q : Paging) (mem : Bytes.Memory) (xs : List ReaderTurn) (s : Readers)
    (since : Int → Nat)
    (hrun : run (Readers.counted fs) (Readers.boot q mem, fun _ => 0) xs = some (s, since)) :
    (∀ o s', s.step fs .next = some (some o, s') → 1 ≤ since s.kernel.terminalNum) ∧
    (∀ t, s.wait t ≠ .user → (s.kernel.rtcFlag t = 0 ↔ 1 ≤ since t) ∧
      (1 ≤ since t → t = s.kernel.terminalNum → s.Returns fs)) ∧
    (∃ o s', s.step fs (.run .rtc) = some (o, s') ∧
      ∀ t, s.wait t ≠ .user → s'.wait t = s.wait t ∧ s'.kernel.rtcFlag t = 0) ∧
    (∀ x o s' t, s.step fs x = some (o, s') → x ≠ .run .rtc → s.wait t ≠ .user →
      (x = .next → t ≠ s.kernel.terminalNum) →
      s'.wait t = s.wait t ∧ s'.kernel.rtcFlag t = s.kernel.rtcFlag t) := by
  have h : Waits since s := by
    refine run_induction (I := fun p : Readers × (Int → Nat) => Waits p.2 p.1) ?_ (waits_boot q mem) hrun
    intro p x r hp hr
    obtain ⟨o, p'⟩ := r
    obtain ⟨s', hs, rfl⟩ := ghost_eq_some.mp hr
    exact hp.step hs
  have hseen : ∀ t, s.wait t ≠ .user → (s.kernel.rtcFlag t = 0 ↔ 1 ≤ since t) := by
    intro t ht
    rw [h.flag t ht]
    split_ifs with h0
    · simp [h0]
    · simp only [true_iff]
      omega
  refine ⟨fun o s' hs => ?_, fun t ht => ⟨hseen t ht, fun hn heq => ?_⟩, ?_,
    fun x o s' t hs hrtc ht hx => h.other hs hrtc ht hx⟩
  · cases Readers.step_cases hs with
    | @back m hw hf =>
      have hwait : s.wait s.kernel.terminalNum ≠ .user := by rw [hw]; exact nofun
      rw [h.own _ m hw] at hf
      exact (hseen _ hwait).mp hf
  · subst heq
    exact h.returns fs ht hn
  · exact ⟨_, _, rtc_turn fs s, fun t ht => ⟨rfl, if_pos (isTerm_of_range (h.alive t ht).1)⟩⟩

/-- The small image with the device `rtc`. -/
def rtcFs : Fs where
  bootAddr := smallFs.bootAddr
  mem := Bytes.overlay (Bytes.overlay smallFs.mem 0x450000 [3]) 0x4500c0 [0x72, 0x74, 0x63]

/-- The first terminal waits for the RTC; while the others are scheduled the interrupt comes. -/
def waitRound : List ReaderTurn :=
  [.run (.tick 0 0 zeroEnv), .run (.openFile (some (ascii "rtc")) true), .run (.read 2 localBuf 4), .next,
    .run (.tick 0 0 zeroEnv), .run (.tick 0 0 zeroEnv), .run .rtc, .run (.tick 0 0 zeroEnv)]

theorem rtc_read_waits_round : ∃ s since,
    run (Readers.counted rtcFs) (Readers.boot linkedPaging fun _ => 0, fun _ => 0) waitRound = some (s, since) ∧
    s.wait 0 = .test 0 ∧ s.kernel.rtcFlag 0 = 0 ∧ s.Returns rtcFs := by
  have hrun : (run (Readers.counted rtcFs) (Readers.boot linkedPaging fun _ => 0, fun _ => 0) waitRound).map
      (fun p => (p.1.kernel.terminalNum, p.1.wait 0, p.2 0)) = some (0, .test 0, 1) := by decide +kernel
  obtain ⟨⟨s, since⟩, hr, hp⟩ := Option.map_eq_some_iff.mp hrun
  simp only [Prod.mk.injEq] at hp
  obtain ⟨hn, hw, hseen⟩ := hp
  have hwaits : s.wait 0 ≠ .user := by rw [hw]; exact nofun
  obtain ⟨-, hall, -⟩ := rtc_read_waits rtcFs linkedPaging (fun _ => 0) waitRound s since hr
  obtain ⟨hflag, hreturns⟩ := hall 0 hwaits
  exact ⟨s, since, hr, hw, hflag.mpr (by omega), hreturns (by omega) hn.symm⟩

/-! ## Nothing in between -/

section
variable {fs : Fs} {k k' : Kernel} {o : Outcome} {e : Event}

theorem step_rtcRead (fs : Fs) (hc : k.CallsRtcRead e) :
    k.step fs e = some (.returned 0 [], k.raiseFlag.rtcInterruptHandler) := by
  cases e with
  | read fd buf nbytes =>
    obtain ⟨hargs, hfd, a, ha, hopen, hop⟩ := hc
    have hsome : k.active.isSome = true := by rw [ha]; rfl
    rw [Kernel.step, Kernel.call, if_pos hsome, Kernel.read, if_neg hargs, ha, Option.bind_some,
      if_neg (not_not.mpr hopen), if_neg hfd, Kernel.readFunc, hop]
    rfl
  | _ => exact hc.elim

/-- The kernel's read of the RTC is a read with one interrupt and nothing else in between. -/
theorem read_alone (fs : Fs) (hrange : 0 ≤ k.terminalNum ∧ k.terminalNum ≤ 2) (hc : k.CallsRtcRead e) :
    run (Readers.step fs) ⟨k, fun _ => .user⟩ [.run e, .run .rtc, .next, .next] =
      some ⟨k.raiseFlag.rtcInterruptHandler, fun _ => .user⟩ := by
  have hdown : k.raiseFlag.rtcInterruptHandler.rtcFlag k.terminalNum = 0 := if_pos (isTerm_of_range hrange)
  -- the states between the turns differ in where the reader is
  let reader (w : Wait) : Readers :=
    ⟨k.raiseFlag.rtcInterruptHandler, Function.update (fun _ => .user) k.terminalNum w⟩
  have hstart : Readers.step fs ⟨k, fun _ => .user⟩ (.run e) =
      some (none, ⟨k.raiseFlag, Function.update (fun _ => .user) k.terminalNum .fetch⟩) := by
    simp only [Readers.step, or_true, if_true, if_pos hc]
  have hwait : ∀ w, (reader w).wait (reader w).kernel.terminalNum = w := by
    intro w
    simp [reader, Kernel.raiseFlag, Kernel.rtcInterruptHandler]
  have hfetch : Readers.step fs (reader .fetch) .next = some (none, reader (.test k.terminalNum)) := by
    simp only [Readers.step, hwait]
    simp [reader, Kernel.raiseFlag, Kernel.rtcInterruptHandler]
  have htest : Readers.step fs (reader (.test k.terminalNum)) .next =
      some (some (.returned 0 []), reader .user) := by
    simp only [Readers.step, hwait]
    rw [if_pos hdown]
    simp [reader, Kernel.raiseFlag, Kernel.rtcInterruptHandler]
  have hback : reader .user = ⟨k.raiseFlag.rtcInterruptHandler, fun _ => .user⟩ := by
    simp only [reader]
    rw [Function.update_eq_self (f := fun _ : Int => Wait.user)]
  rw [← hback]
  exact run_cons.mpr ⟨_, hstart, run_cons.mpr ⟨_, rtc_turn fs _, run_cons.mpr ⟨_, hfetch,
    run_cons.mpr ⟨_, htest, rfl⟩⟩⟩⟩

/-- Every event of the kernel is some turns of the readers, with everybody in user code
before and after. -/
theorem event_readers (hrange : -1 ≤ k.terminalNum ∧ k.terminalNum ≤ 2)
    (hidle : k.terminalNum = -1 → ∀ t, k.proc.active t = none) (h : k.step fs e = some (o, k')) :
    ∃ xs, run (Readers.step fs) ⟨k, fun _ => .user⟩ xs = some ⟨k', fun _ => .user⟩ := by
  by_cases hc : k.CallsRtcRead e
  · rw [step_rtcRead fs hc] at h
    obtain ⟨-, rfl⟩ := Prod.mk.inj (Option.some.inj h)
    exact ⟨_, read_alone fs (calls_range hrange hidle hc).1 hc⟩
  · have hlanded : Readers.landed (fun _ => .user) o k' = fun _ => .user := by
      cases o with
      | entered entry => exact Function.update_eq_self (f := fun _ : Int => Wait.user) _
      | _ => rfl
    refine ⟨[.run e], run_cons.mpr ⟨(some o, _), ?_, rfl⟩⟩
    simp [Readers.step, hc, h, hlanded]

theorem readers_run {es : List Event} (hrange : -1 ≤ k.terminalNum ∧ k.terminalNum ≤ 2)
    (hidle : k.terminalNum = -1 → ∀ t, k.proc.active t = none)
    (h : run (Kernel.step fs) k es = some k') :
    ∃ xs, run (Readers.step fs) ⟨k, fun _ => .user⟩ xs = some ⟨k', fun _ => .user⟩ := by
  induction es generalizing k with
  | nil =>
    obtain rfl : k = k' := Option.some.inj h
    exact ⟨[], rfl⟩
  | cons e es ih =>
    obtain ⟨⟨o, k1⟩, hs, hr⟩ := run_cons.mp h
    obtain ⟨hrange1, hidle1⟩ := idle_event hrange hidle hs
    obtain ⟨xs, hxs⟩ := event_readers hrange hidle hs
    obtain ⟨rest, hrest⟩ := ih hrange1 hidle1 hr
    refine ⟨xs ++ rest, ?_⟩
    rw [run_append, hxs, Option.bind_some, hrest]

end

end Flipit

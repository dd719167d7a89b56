import Flipit.QueueBounds

/- The ready flag and the lines that wait for it.

   `command_ready_flag` is one bit for each terminal: Enter raises it, and every read
   that gets to the queue lowers it, whether or not it took the whole line and whether
   or not another line of the terminal is queued behind. A second line entered before
   the first is read, or a line longer than `nbytes`, is then pending with the flag
   down, and the next read waits.

   The driver is run beside the kernel on bytes that carry the number of their
   keystroke, so that two equal characters are told apart, with a journal of the bytes
   submitted in each terminal and of those returned. The flag is up while a line is
   pending exactly if each read takes all that is pending in its terminal, and nothing
   is pending when the first tick resets the flags (`ready_flag_iff`). -/
namespace Flipit
open Machine Typed Input

/-- A byte and the number of its keystroke. -/
abbrev Stamped := UInt8 × Nat

instance : Typed Stamped := ⟨Prod.fst, (0, 0)⟩

/-- The driver's data on stamped bytes, the number of the next keystroke, the bytes of the
lines submitted in each terminal, and the bytes reads have returned. -/
structure Journal where
  input : Input Stamped
  serial : Nat
  submitted : Int → List Stamped
  returned : List Stamped

namespace Journal

def blank : Journal := ⟨⟨fun _ => null, 0, fun _ => ⟨fun _ => null, 0, 0⟩⟩, 0, fun _ => [], []⟩

/-- Enter submits the visible terminal's line. -/
def submit (l : Journal) (v : Int) : Act → Int → List Stamped
  | .key c =>
    if c = 0x0A then
      Function.update l.submitted v (l.submitted v ++ ((l.input.line v).content ++ [(c, l.serial)]))
    else l.submitted
  | _ => l.submitted

/-- The journal after an action of the kernel. -/
def advance (l : Journal) (k : Kernel) : QueueAct → Option Journal
  | .controlL => some { l with input := l.input.onLine k.currentVisible Line.clearBuffer }
  | .act a => (k.drive (fun c => (c, l.serial)) l.input a).map fun q =>
    ⟨q.2, l.serial + 1, l.submit k.currentVisible a, l.returned ++ q.1⟩

/-- A complete line submitted in `t` has a byte that no read has returned. -/
def Pending (l : Journal) (t : Int) : Prop := ∃ x ∈ l.submitted t, x ∉ l.returned

end Journal

/-- The kernel and the journal, in step. -/
def queueStamped (fs : Fs) (s : Kernel × Journal) (a : QueueAct) :
    Option (List UInt8 × (Kernel × Journal)) :=
  (s.1.queue fs a).bind fun r => (s.2.advance s.1 a).map fun l => (r.1, (r.2, l))

/-- The flag of a terminal with a pending line is up. -/
def Ready (s : Kernel × Journal) : Prop :=
  ∀ t : Fin 3, s.2.Pending t → (s.1.input.line t).commandReadyFlag = 1

/-- Each pending byte of the reading terminal is among the first `nbytes` bytes of
`command_buf`, with no newline in front of it; the first tick finds nothing pending. -/
def TakesPending (s : Kernel × Journal) : QueueAct → Prop
  | .act (.read buf nbytes) => s.1.Reads buf nbytes → ∀ t : Fin 3, s.1.terminalNum = t →
      ∀ x ∈ s.2.submitted t, x ∉ s.2.returned →
        ∃ j, j < nbytes.toNat ∧ s.2.input.commandBuf j = x ∧
          ∀ i, i < j → code (s.2.input.commandBuf i) ≠ 0x0A
  | .act (.tick _ _ _) => s.1.terminalNum = -1 → ∀ t : Fin 3, ¬ s.2.Pending t
  | _ => True

/-! ## The driver's flags -/

section
variable {α : Type} [Typed α]

theorem addToBuffer_flag (inp : Input α) (v t : Int) (c : α) :
    ((inp.addToBuffer v c).1.line t).commandReadyFlag =
      if code c = 0x0A ∧ t = v then 1 else (inp.line t).commandReadyFlag := by
  by_cases hc : code c = 0x0A
  · obtain ⟨-, -, -, hline, hothers⟩ := addToBuffer_submit inp v hc
    by_cases ht : t = v
    · subst ht
      rw [hline, if_pos ⟨hc, rfl⟩]
      rfl
    · rw [hothers t ht, if_neg fun h => ht h.2]
  · rw [if_neg fun h => hc h.1]
    exact (addToBuffer_edit (v := v) hc).2.2.2.1 t

theorem mem_readLoop {buf : Int → α} {n : Nat} {x : α} :
    x ∈ (List.range (readLoop buf n 0)).map (fun j : Nat => buf j) ↔
      ∃ j : Nat, j < n ∧ buf j = x ∧ ∀ i : Nat, i < j → code (buf i) ≠ 0x0A := by
  have hlt : ∀ j, j < readLoop buf n 0 ↔ j < n ∧ ∀ i : Nat, i < j → code (buf i) ≠ 0x0A := by
    intro j
    rw [← Nat.not_le, readLoop_le_iff buf n 0 j (Nat.zero_le j)]
    simp
  simp only [List.mem_map, List.mem_range, hlt]
  constructor
  · intro hex
    obtain ⟨j, ⟨hj, hnl⟩, hx⟩ := hex
    exact ⟨j, hj, hx, hnl⟩
  · intro hex
    obtain ⟨j, hj, hx, hnl⟩ := hex
    exact ⟨j, ⟨hj, hnl⟩, hx⟩

end

/-! ## One action -/

section
variable {fs : Fs} {k k' : Kernel} {l l' : Journal} {a : QueueAct} {data : List UInt8}

theorem advance_queue (hl : l.input.map code = k.input) (h : k.queue fs a = some (data, k')) :
    ∃ l', l.advance k a = some l' ∧ l'.input.map code = k'.input := by
  cases a with
  | controlL =>
    refine ⟨_, rfl, ?_⟩
    dsimp only
    rw [map_onLine code Line.clearBuffer (map_clearBuffer rfl), hl, (queue_controlL h).2.1]
  | act a =>
    obtain ⟨out, x, hd, -, hx⟩ := drive_act (fun c => ((c, l.serial) : Stamped)) rfl (fun _ => rfl) hl h
    exact ⟨_, by rw [Journal.advance, hd]; rfl, hx⟩

theorem Ready.of_same (h : Ready (k, l)) (hsub : l'.submitted = l.submitted)
    (hret : l.returned ⊆ l'.returned)
    (hflag : ∀ t : Fin 3, l'.Pending t →
      (k'.input.line t).commandReadyFlag = (k.input.line t).commandReadyFlag) : Ready (k', l') := by
  intro t hp
  rw [hflag t hp]
  obtain ⟨x, hx, hnot⟩ := hp
  rw [hsub] at hx
  exact h t ⟨x, hx, fun hr => hnot (hret hr)⟩

theorem Ready.key {c : UInt8} (h : Ready (k, l))
    (hi : k'.input = (k.input.addToBuffer k.currentVisible c).1)
    (hsub : l'.submitted = l.submit k.currentVisible (.key c)) (hret : l'.returned = l.returned) :
    Ready (k', l') := by
  intro t hp
  dsimp only
  rw [hi, addToBuffer_flag]
  split
  · rfl
  · rename_i hne
    apply h t
    obtain ⟨x, hx, hnot⟩ := hp
    refine ⟨x, ?_, by rwa [← hret]⟩
    rw [hsub, Journal.submit] at hx
    split at hx
    · rename_i hc
      rwa [Function.update_of_ne fun he => hne ⟨hc, he⟩] at hx
    · exact hx

theorem Ready.tick (h : Ready (k, l)) (hi : k'.input = k.tickLines k.input)
    (hsub : l'.submitted = l.submitted) (hret : l'.returned = l.returned) :
    Ready (k', l') ↔ (k.terminalNum = -1 → ∀ t : Fin 3, ¬ l.Pending t) := by
  have hpend : ∀ t, l'.Pending t ↔ l.Pending t := by
    intro t
    simp only [Journal.Pending, hsub, hret]
  have hterm : ∀ t : Fin 3, isTerm t = true := by decide
  constructor
  · intro hready hfirst t hp
    have hup := hready t ((hpend t).mpr hp)
    dsimp only at hup
    rw [hi] at hup
    simp [Kernel.tickLines, Kernel.fresh, hfirst, hterm] at hup
  · intro hnone
    refine h.of_same hsub (by rw [hret]; exact List.Subset.refl _) fun t hp => ?_
    have hfresh : k.fresh t = false := by
      simp only [Kernel.fresh, Bool.and_eq_false_iff, beq_eq_false_iff_ne]
      exact .inl fun hfirst => hnone hfirst t ((hpend t).mp hp)
    rw [hi]
    simp [Kernel.tickLines, hfresh]

/-- A read that gets to the queue returns the front of it and lowers the flag. -/
theorem Ready.read {buf : Nat} {nbytes : Int} (h : Ready (k, l)) (hr : k.Reads buf nbytes)
    (hi : ∀ t, (k'.input.line t).commandReadyFlag =
      if t = k.terminalNum then -1 else (k.input.line t).commandReadyFlag)
    (hsub : l'.submitted = l.submitted)
    (hret : l'.returned = l.returned ++
      (List.range (readLoop l.input.commandBuf nbytes.toNat 0)).map fun j : Nat => l.input.commandBuf j) :
    Ready (k', l') ↔ TakesPending (k, l) (.act (.read buf nbytes)) := by
  constructor
  · intro hready _ t ht x hx hnot
    rw [← mem_readLoop]
    by_contra hout
    have hup := hready t ⟨x, by rwa [hsub], by rw [hret, List.mem_append]; exact not_or.mpr ⟨hnot, hout⟩⟩
    dsimp only at hup ht
    rw [hi, if_pos ht.symm] at hup
    cases hup
  · intro htakes
    refine h.of_same hsub (by rw [hret]; exact List.subset_append_left _ _) fun t hp => ?_
    obtain ⟨x, hx, hnot⟩ := hp
    rw [hret, List.mem_append, not_or] at hnot
    rw [hsub] at hx
    rw [hi]
    apply if_neg
    intro ht
    exact hnot.2 (mem_readLoop.mpr (htakes hr t ht.symm x hx hnot.1))

/-- From a state in which the flags are up, an action leads to one exactly if it takes what
is pending. -/
theorem ready_step (h : Ready (k, l))
    (hk : k.queue fs a = some (data, k')) (ha : l.advance k a = some l') :
    Ready (k', l') ↔ TakesPending (k, l) a := by
  cases a with
  | controlL =>
    obtain rfl := Option.some.inj ha
    refine ⟨fun _ => trivial, fun _ => h.of_same rfl (List.Subset.refl _) fun t _ => ?_⟩
    rw [(queue_controlL hk).2.1]
    rcases eq_or_ne (t : Int) k.currentVisible with ht | ht
    · rw [ht, onLine_line]
      rfl
    · rw [onLine_line_ne ht]
  | act a =>
    have hc := act_cases hk
    obtain ⟨⟨out, x⟩, hd, rfl⟩ := Option.map_eq_some_iff.mp ha
    cases a with
    | key c =>
      obtain ⟨rfl, rfl⟩ := Prod.mk.inj (Option.some.inj hd)
      exact ⟨fun _ => trivial, fun _ => h.key hc.2.1 rfl (List.append_nil _)⟩
    | altF dest =>
      obtain ⟨rfl, rfl⟩ := Prod.mk.inj (Option.some.inj hd)
      refine ⟨fun _ => trivial, fun _ => h.of_same rfl ?_ fun t _ => by rw [hc.2.1]⟩
      exact List.subset_append_left _ _
    | tick esp ebp env =>
      obtain ⟨rfl, rfl⟩ := Prod.mk.inj (Option.some.inj hd)
      exact h.tick hc.2.1 rfl (List.append_nil _)
    | read buf nbytes =>
      obtain ⟨⟨b, hb⟩, ⟨ret, hr⟩, -, -⟩ := hc
      obtain ⟨⟨ret', out', x'⟩, hx, he⟩ := Option.map_eq_some_iff.mp hd
      obtain ⟨rfl, rfl⟩ := Prod.mk.inj he
      have hact : k.active.isSome := by rw [hb]; rfl
      rcases terminalRead_cases hr with ⟨hbad, -, hi⟩ | ⟨hn, hbuf, hflag, -, hi⟩
      · -- a read that refuses its arguments leaves everything as it is
        have hno := not_reads (k := k) hbad
        refine ⟨fun _ hyes => absurd hyes hno, fun _ => h.of_same rfl ?_ fun t _ => by rw [hi]⟩
        exact List.subset_append_left _ _
      · refine h.read ⟨hact, hbuf, hn, hflag⟩ (fun t => ?_) rfl ?_
        · rw [hi, shift_eq]
          split
          · rename_i ht
            rw [ht, onLine_line]
          · rename_i ht
            rw [onLine_line_ne ht]
        · rcases terminalRead_cases hx with ⟨hbad, -, -⟩ | ⟨-, -, -, hout, -⟩
          · rcases hbad with hlt | hnull
            · omega
            · exact absurd hnull hbuf
          · rw [hout]

theorem stamped_run {as : List QueueAct} (hl : l.input.map code = k.input)
    (hr : run (Kernel.queue fs) k as = some k') :
    ∃ l', run (queueStamped fs) (k, l) as = some (k', l') ∧ l'.input.map code = k'.input := by
  induction as generalizing k l with
  | nil =>
    obtain rfl : k = k' := Option.some.inj hr
    exact ⟨l, rfl, hl⟩
  | cons a as ih =>
    obtain ⟨⟨data, k1⟩, hk, hr⟩ := run_cons.mp hr
    obtain ⟨l1, hl1, hmap⟩ := advance_queue hl hk
    obtain ⟨l', hr', hl'⟩ := ih hmap hr
    refine ⟨l', run_cons.mpr ⟨(data, (k1, l1)), ?_, hr'⟩, hl'⟩
    simp [queueStamped, hk, hl1]

end

/-- In every run from boot of keys, Ctrl+L, visible switches, ticks and reads that completes:
in every state of it the flag of each terminal with a pending line is up exactly if each read
finds all that is pending in its terminal among the first `nbytes` bytes of `command_buf` and
not behind a newline, and nothing is pending at the first tick. Then no read in a terminal
with a pending line waits. -/
theorem ready_flag_iff (fs : Fs) (p : Paging) (mem : Bytes.Memory) (as : List QueueAct) (k : Kernel)
    (hrun : run (Kernel.queue fs) (Kernel.boot p mem) as = some k) :
    ∃ l, run (queueStamped fs) (Kernel.boot p mem, .blank) as = some (k, l) ∧
      l.input.map code = k.input ∧
      (Always (queueStamped fs) Ready (Kernel.boot p mem, .blank) as ↔
        Meets (queueStamped fs) TakesPending (Kernel.boot p mem, .blank) as) ∧
      (Meets (queueStamped fs) TakesPending (Kernel.boot p mem, .blank) as →
        ∀ t : Fin 3, l.Pending t → ∀ buf nbytes, k.input.terminalRead t buf nbytes ≠ none) := by
  have hblank : Ready (Kernel.boot p mem, .blank) := fun t hp => by
    obtain ⟨x, hx, -⟩ := hp
    cases hx
  have hstep : ∀ {s : Kernel × Journal} {a r}, Ready s → queueStamped fs s a = some r →
      (Ready r.2 ↔ TakesPending s a) := by
    intro s a r hready hs
    obtain ⟨⟨data, k'⟩, hk, hs⟩ := Option.bind_eq_some_iff.mp hs
    obtain ⟨l', hl', rfl⟩ := Option.map_eq_some_iff.mp hs
    exact ready_step hready hk hl'
  obtain ⟨l, hstamped, hl⟩ := stamped_run (l := .blank) rfl hrun
  refine ⟨l, hstamped, hl, ?_, fun hG t hp buf nbytes hwait => ?_⟩
  · exact always_iff (I := fun _ => True) hstamped trivial hblank fun _ hready hs =>
      ⟨trivial, hstep hready hs⟩
  · have hready : Ready (k, l) :=
      run_invariant (fun h hG hs => (hstep h hs).mpr hG) hblank hG hstamped
    have hup : (k.input.line t).commandReadyFlag = 1 := hready t hp
    unfold terminalRead at hwait
    split_ifs at hwait with _ _ hflag
    rw [hup] at hflag
    cases hflag

instance (l : Journal) (t : Int) : Decidable (l.Pending t) :=
  inferInstanceAs (Decidable (∃ x ∈ l.submitted t, x ∉ l.returned))

instance (s : Kernel × Journal) : Decidable (Ready s) :=
  inferInstanceAs (Decidable (∀ t : Fin 3, s.2.Pending t → (s.1.input.line t).commandReadyFlag = 1))

instance (s : Kernel × Journal) : (a : QueueAct) → Decidable (TakesPending s a)
  | .act (.read buf nbytes) => inferInstanceAs (Decidable (s.1.Reads buf nbytes →
      ∀ t : Fin 3, s.1.terminalNum = t → ∀ x ∈ s.2.submitted t, x ∉ s.2.returned →
        ∃ j, j < nbytes.toNat ∧ s.2.input.commandBuf j = x ∧
          ∀ i, i < j → code (s.2.input.commandBuf i) ≠ 0x0A))
  | .act (.tick _ _ _) => inferInstanceAs (Decidable (s.1.terminalNum = -1 → ∀ t : Fin 3, ¬ s.2.Pending t))
  | .act (.key _) | .act (.altF _) | .controlL => .isTrue trivial

/-- A line is entered and read, and then another. -/
theorem ready_flag_iff_lines : ∃ k l, run (queueStamped smallFs) (Kernel.boot linkedPaging fun _ => 0, .blank)
      [.act (.tick 0 0 zeroEnv), .act (.key 0x61), .act (.key 0x0A), .act (.read localBuf 128),
        .act (.key 0x62), .act (.key 0x0A)] = some (k, l) ∧
    ∀ t : Fin 3, l.Pending t → ∀ buf nbytes, k.input.terminalRead t buf nbytes ≠ none := by
  have hrun : (run (Kernel.queue smallFs) (Kernel.boot linkedPaging fun _ => 0)
      [.act (.tick 0 0 zeroEnv), .act (.key 0x61), .act (.key 0x0A), .act (.read localBuf 128),
        .act (.key 0x62), .act (.key 0x0A)]).isSome := by decide +kernel
  obtain ⟨k, hk⟩ := Option.isSome_iff_exists.mp hrun
  obtain ⟨l, hl, -, -, hwait⟩ := ready_flag_iff smallFs linkedPaging (fun _ => 0) _ k hk
  exact ⟨k, l, hl, hwait (by decide +kernel)⟩

/-- Two lines are entered in the first terminal, and one is read. -/
def lineBehind : List QueueAct :=
  [.act (.tick 0 0 zeroEnv), .act (.key 0x61), .act (.key 0x0A), .act (.key 0x62), .act (.key 0x0A),
    .act (.read localBuf 128)]

/-- The second line is pending, and the next read waits. -/
theorem second_line_waits : ∃ k l, run (queueStamped smallFs) (Kernel.boot linkedPaging fun _ => 0, .blank)
      lineBehind = some (k, l) ∧ k.terminalNum = 0 ∧ l.Pending 0 ∧
    (k.input.line 0).commandReadyFlag = -1 ∧ k.terminalRead localBuf 128 = none ∧ ¬ Ready (k, l) := by
  have hrun : (run (queueStamped smallFs) (Kernel.boot linkedPaging fun _ => 0, .blank) lineBehind).map
      (fun s => decide (s.1.terminalNum = 0 ∧ s.2.Pending 0 ∧ (s.1.input.line 0).commandReadyFlag = -1 ∧
        (s.1.terminalRead localBuf 128).isNone ∧ ¬ Ready s)) = some true := by decide +kernel
  obtain ⟨⟨k, l⟩, hr, hs⟩ := Option.map_eq_some_iff.mp hrun
  obtain ⟨hn, hp, hf, hw, hnot⟩ := of_decide_eq_true hs
  exact ⟨k, l, hr, hn, hp, hf, Option.isNone_iff_eq_none.mp hw, hnot⟩

end Flipit

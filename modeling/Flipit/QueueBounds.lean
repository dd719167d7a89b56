import Flipit.Provenance

/- The bounds of the input queue.

   `command_buf` has 640 bytes, `command_position` counts those in use, and neither
   end looks at it: `copy_command_buffer` appends without asking for room, and
   `terminal_read` takes bytes up to a newline or `nbytes` of them, whether they are
   in use or not, and subtracts what it took. Its shifting loop reads twice as far as
   it took. So the queue stays in its bounds exactly as long as each Enter finds room
   for its line, and each read stops within the bytes in use and within the first
   half of the buffer (`queue_bounds_iff`).

   Three terminals share the queue, so a read can find its line gone:
   `queue_underflow` takes a line of one terminal for another one's. -/
namespace Flipit
open Machine Typed Input

namespace Kernel

/-- A read of the running process that gets to the queue. -/
def Reads (k : Kernel) (buf : Nat) (nbytes : Int) : Prop :=
  k.active.isSome ∧ buf ≠ 0 ∧ 0 ≤ nbytes ∧ (k.input.line k.terminalNum).commandReadyFlag ≠ -1

instance (k : Kernel) (buf : Nat) (nbytes : Int) : Decidable (k.Reads buf nbytes) :=
  inferInstanceAs (Decidable (_ ∧ _))

/-- The indices of `command_buf` that the action reads or writes: where the line goes, and
those of the copying and of the shifting loop. -/
def touched (k : Kernel) : QueueAct → List Int
  | .act (.key c) =>
    if c = 0x0A then
      (List.range ((k.input.line k.currentVisible).bufPosition + 1)).map fun i : Nat =>
        k.input.commandPosition + i
    else []
  | .act (.read buf nbytes) =>
    if k.Reads buf nbytes then
      let i := readLoop k.input.commandBuf nbytes.toNat 0
      (List.range i).map (fun j : Nat => (j : Int)) ++
        (List.range i).flatMap fun j : Nat => [(j : Int), (j : Int) + i]
    else []
  | _ => []

/-- The action keeps to `command_buf`, and leaves `command_position` within it. -/
def InQueue (fs : Fs) (k : Kernel) (a : QueueAct) : Prop :=
  (∀ n ∈ k.touched a, 0 ≤ n ∧ n < 640) ∧ ∀ r, k.queue fs a = some r →
    0 ≤ r.2.input.commandPosition ∧ r.2.input.commandPosition ≤ 640

/-- Enter finds room for the line; a read asks for no more bytes than are in use, or meets
a newline among them, and in the first half of the buffer. -/
def QueueRoom (k : Kernel) : QueueAct → Prop
  | .act (.key c) => c = 0x0A →
      k.input.commandPosition + ((k.input.line k.currentVisible).bufPosition + 1) ≤ 640
  | .act (.read buf nbytes) => k.Reads buf nbytes →
      nbytes ≤ min k.input.commandPosition 320 ∨
      ∃ j : Fin 320, (j.val : Int) < k.input.commandPosition ∧ k.input.commandBuf j.val = 0x0A
  | _ => True

/-- The position is one of the buffer's. -/
def Bounded (k : Kernel) : Prop := 0 ≤ k.input.commandPosition ∧ k.input.commandPosition ≤ 640

end Kernel

/-! ## The copying loop -/

section
variable {α : Type} [Typed α]

theorem le_readLoop (buf : Int → α) (n i : Nat) : i ≤ readLoop buf n i := by
  induction n generalizing i with
  | zero => exact le_refl _
  | succ n ih =>
    rw [readLoop]
    split
    · omega
    · exact Nat.le_of_succ_le (ih (i + 1))

theorem readLoop_le_iff (buf : Int → α) (n i m : Nat) (hm : i ≤ m) :
    readLoop buf n i ≤ m ↔ i + n ≤ m ∨ ∃ j, i ≤ j ∧ j < m ∧ code (buf j) = 0x0A := by
  induction n generalizing i with
  | zero => simp [readLoop, hm]
  | succ n ih =>
    rw [readLoop]
    split
    · rename_i hc
      constructor
      · intro h
        exact .inr ⟨i, le_refl _, by omega, hc⟩
      · intro h
        rcases h with h | ⟨j, hj, hjm, -⟩
        · omega
        · omega
    · rename_i hc
      -- a newline from `i` on lies behind `i`
      have hnext : (∃ j, i ≤ j ∧ j < m ∧ code (buf j) = 0x0A) ↔
          ∃ j, i + 1 ≤ j ∧ j < m ∧ code (buf j) = 0x0A := by
        constructor
        · intro hex
          obtain ⟨j, hj, hjm, hnl⟩ := hex
          refine ⟨j, ?_, hjm, hnl⟩
          by_contra hlt
          obtain rfl : j = i := by omega
          exact hc hnl
        · intro hex
          obtain ⟨j, hj, hjm, hnl⟩ := hex
          exact ⟨j, by omega, hjm, hnl⟩
      rw [hnext, show i + (n + 1) = i + 1 + n by omega]
      rcases Nat.lt_or_ge i m with hlt | hge
      · exact ih (i + 1) hlt
      · constructor
        · intro h
          have := le_readLoop buf n (i + 1)
          omega
        · intro h
          rcases h with h | ⟨j, hj, hjm, -⟩
          · omega
          · omega

end

/-! ## One action -/

section
variable {fs : Fs} {k k' : Kernel} {a : QueueAct} {data : List UInt8}

/-- What an action does to the queue. -/
structure QueueMove (k k' : Kernel) (a : QueueAct) : Prop where
  position : k'.input.commandPosition = match a with
    | .act (.key c) => if c = 0x0A then
        k.input.commandPosition + ((k.input.line k.currentVisible).bufPosition + 1)
      else k.input.commandPosition
    | .act (.read buf nbytes) => if k.Reads buf nbytes then
        k.input.commandPosition - readLoop k.input.commandBuf nbytes.toNat 0
      else k.input.commandPosition
    | _ => k.input.commandPosition
  outside : ∀ n, n ∉ k.touched a → k'.input.commandBuf n = k.input.commandBuf n

theorem key_move {c : UInt8} (hi : k'.input = (k.input.addToBuffer k.currentVisible c).1) :
    QueueMove k k' (.act (.key c)) := by
  by_cases hc : c = 0x0A
  · have hcode : code c = 0x0A := hc
    obtain ⟨hpos, hbuf, -⟩ := addToBuffer_submit k.input k.currentVisible hcode
    constructor
    · rw [hi]
      simp only [if_pos hc]
      exact hpos
    · intro n hn
      rw [hi]
      apply hbuf
      simp only [Kernel.touched, if_pos hc, List.mem_map, List.mem_range, not_exists, not_and] at hn
      by_contra hin
      exact hn (n - k.input.commandPosition).toNat (by omega) (by omega)
  · have hcode : code c ≠ 0x0A := hc
    obtain ⟨hbuf, hpos, -⟩ := addToBuffer_edit (v := k.currentVisible) hcode
    constructor
    · rw [hi]
      simp only [if_neg hc]
      exact hpos
    · intro n _
      rw [hi, hbuf]

theorem not_reads {buf : Nat} {nbytes : Int} (hbad : nbytes < 0 ∨ buf = 0) : ¬ k.Reads buf nbytes := by
  intro h
  rcases hbad with hn | hbuf
  · have := h.2.2.1
    omega
  · exact h.2.1 hbuf

theorem read_move {buf : Nat} {nbytes ret : Int} (hact : k.active.isSome)
    (hr : k.input.terminalRead k.terminalNum buf nbytes = some (ret, data, k'.input)) :
    QueueMove k k' (.act (.read buf nbytes)) := by
  rcases terminalRead_cases hr with ⟨hbad, -, hi⟩ | ⟨hn, hbuf, hflag, -, hi⟩
  · have hno := not_reads (k := k) hbad
    exact ⟨by simp only [if_neg hno, hi], fun _ _ => by rw [hi]⟩
  · have hyes : k.Reads buf nbytes := ⟨hact, hbuf, hn, hflag⟩
    constructor
    · rw [hi, onLine_commandPosition, shift_eq]
      simp only [if_pos hyes]
    · intro n hn
      rw [hi, shift_eq]
      simp only [Kernel.touched, if_pos hyes, List.mem_append, List.mem_map, List.mem_range, not_or,
        not_exists, not_and] at hn
      apply if_neg
      intro hin
      exact hn.1 n.toNat (by omega) (by omega)

theorem queue_move (h : k.queue fs a = some (data, k')) : QueueMove k k' a := by
  cases a with
  | controlL => exact ⟨by rw [(queue_controlL h).2.1]; rfl, fun _ _ => by rw [(queue_controlL h).2.1]; rfl⟩
  | act a =>
    have hc := act_cases h
    cases a with
    | key c => exact key_move hc.2.1
    | altF dest => exact ⟨by rw [hc.2.1], fun _ _ => by rw [hc.2.1]⟩
    | tick esp ebp env => exact ⟨by rw [hc.2.1]; rfl, fun _ _ => by rw [hc.2.1]; rfl⟩
    | read buf nbytes =>
      obtain ⟨⟨b, hb⟩, ⟨ret, hr⟩, -, -⟩ := hc
      exact read_move (by rw [hb]; rfl) hr

theorem reads_completes (fs : Fs) {buf : Nat} {nbytes : Int} (h : k.Reads buf nbytes) :
    ∃ data k', k.queue fs (.act (.read buf nbytes)) = some (data, k') := by
  obtain ⟨hact, hbuf, hn, hflag⟩ := h
  simp only [Kernel.queue, Kernel.act, if_pos hact, Kernel.terminalRead, terminalRead,
    if_neg (Int.not_lt.mpr hn), if_neg hbuf, if_neg hflag]
  exact ⟨_, _, rfl⟩

/-- A read has room exactly if it takes no more than is in use and half of the buffer. -/
theorem reads_room (h : k.Bounded) {buf : Nat} {nbytes : Int} (hr : k.Reads buf nbytes) :
    k.QueueRoom (.act (.read buf nbytes)) ↔
      (readLoop k.input.commandBuf nbytes.toNat 0 : Int) ≤ min k.input.commandPosition 320 := by
  have hn := hr.2.2.1
  have h0 := h.1
  have hloop := readLoop_le_iff k.input.commandBuf nbytes.toNat 0
    (min k.input.commandPosition 320).toNat (Nat.zero_le _)
  have hle : (readLoop k.input.commandBuf nbytes.toNat 0 : Int) ≤ min k.input.commandPosition 320 ↔
      readLoop k.input.commandBuf nbytes.toNat 0 ≤ (min k.input.commandPosition 320).toNat := by omega
  rw [hle, hloop]
  constructor
  · intro hroom
    rcases hroom hr with hsmall | ⟨j, hj, hnl⟩
    · exact .inl (by omega)
    · exact .inr ⟨j.val, Nat.zero_le _, by omega, hnl⟩
  · intro hroom _
    rcases hroom with hsmall | ⟨j, -, hj, hnl⟩
    · exact .inl (by omega)
    · exact .inr ⟨⟨j, by omega⟩, by dsimp only; omega, hnl⟩

/-- The loops of such a read keep to the buffer, and the position to its range. -/
theorem reads_inQueue (h : k.Bounded) {buf : Nat} {nbytes : Int} (hr : k.Reads buf nbytes) :
    k.InQueue fs (.act (.read buf nbytes)) ↔
      (readLoop k.input.commandBuf nbytes.toNat 0 : Int) ≤ min k.input.commandPosition 320 := by
  obtain ⟨h0, h640⟩ := h
  simp only [Kernel.InQueue, Kernel.touched, if_pos hr]
  constructor
  · intro hin
    obtain ⟨data, k', hs⟩ := reads_completes fs hr
    have hpos := (queue_move hs).position
    simp only [if_pos hr] at hpos
    have hafter : 0 ≤ k'.input.commandPosition := (hin.2 _ hs).1
    generalize readLoop k.input.commandBuf nbytes.toNat 0 = i at hin hpos ⊢
    have hhalf : i ≤ 320 := by
      rcases Nat.eq_zero_or_pos i with hi | hi
      · omega
      · -- the last turn of the shifting loop
        have hlast := hin.1 (((i - 1 : Nat) : Int) + i) (List.mem_append_right _ (List.mem_flatMap.mpr
          ⟨i - 1, List.mem_range.mpr (by omega), by simp⟩))
        omega
    omega
  · intro hle
    generalize hloop : readLoop k.input.commandBuf nbytes.toNat 0 = i at hle ⊢
    refine ⟨fun n hn => ?_, fun r hs => ?_⟩
    · simp only [List.mem_append, List.mem_map, List.mem_flatMap, List.mem_range, List.mem_cons,
        List.not_mem_nil, or_false] at hn
      rcases hn with ⟨j, hj, rfl⟩ | ⟨j, hj, rfl | rfl⟩
      · omega
      · omega
      · omega
    · have hpos := (queue_move hs).position
      simp only [if_pos hr, hloop] at hpos
      omega

/-- From a position in bounds, an action keeps to the queue exactly if it finds room. -/
theorem Kernel.Bounded.inQueue_iff (h : k.Bounded) : k.InQueue fs a ↔ k.QueueRoom a := by
  obtain ⟨h0, h640⟩ := h
  have hsame : (∀ {k'}, QueueMove k k' a → k'.input.commandPosition = k.input.commandPosition) →
      k.touched a = [] → k.InQueue fs a := by
    intro hpos hnone
    refine ⟨by simp [hnone], fun r hr => ?_⟩
    rw [hpos (queue_move hr)]
    exact ⟨h0, h640⟩
  cases a with
  | controlL => exact ⟨fun _ => trivial, fun _ => hsame (fun hm => hm.position) rfl⟩
  | act a =>
    cases a with
    | altF dest => exact ⟨fun _ => trivial, fun _ => hsame (fun hm => hm.position) rfl⟩
    | tick esp ebp env => exact ⟨fun _ => trivial, fun _ => hsame (fun hm => hm.position) rfl⟩
    | key c =>
      by_cases hc : c = 0x0A
      · constructor
        · intro hin _
          -- the last byte of the line
          have hlast := hin.1 (k.input.commandPosition + (k.input.line k.currentVisible).bufPosition)
            (by
              simp only [Kernel.touched, if_pos hc, List.mem_map, List.mem_range]
              exact ⟨_, Nat.lt_succ_self _, rfl⟩)
          omega
        · intro hroom
          have hfits := hroom hc
          refine ⟨fun n hn => ?_, fun r hr => ?_⟩
          · simp only [Kernel.touched, if_pos hc, List.mem_map, List.mem_range] at hn
            obtain ⟨i, hi, rfl⟩ := hn
            omega
          · have hpos := (queue_move hr).position
            simp only [if_pos hc] at hpos
            omega
      · refine ⟨fun _ he => absurd he hc, fun _ => hsame (fun hm => ?_) (by simp [Kernel.touched, hc])⟩
        have hpos := hm.position
        simpa only [if_neg hc] using hpos
    | read buf nbytes =>
      by_cases hreads : k.Reads buf nbytes
      · rw [reads_room ⟨h0, h640⟩ hreads, reads_inQueue ⟨h0, h640⟩ hreads]
      · refine ⟨fun _ hr => absurd hr hreads,
          fun _ => hsame (fun hm => ?_) (by simp [Kernel.touched, hreads])⟩
        have hpos := hm.position
        simpa only [if_neg hreads] using hpos

theorem Kernel.Bounded.step (h : k.Bounded) (hroom : k.QueueRoom a) (hs : k.queue fs a = some (data, k')) :
    k'.Bounded ∧ ∀ n, ¬ (0 ≤ n ∧ n < 640) → k'.input.commandBuf n = k.input.commandBuf n := by
  obtain ⟨htouched, hpos⟩ := h.inQueue_iff.mpr hroom
  refine ⟨hpos _ hs, fun n hn => ?_⟩
  apply (queue_move hs).outside
  intro hmem
  exact hn (htouched n hmem)

end

/-- In every run from boot of keys, Ctrl+L, visible switches, ticks and reads of any size:
every action keeps to the 640 bytes of `command_buf` and `command_position` stays between
0 and 640 exactly if each Enter finds room for its line, and each read that gets to the
queue asks for no more bytes than are in use, or meets a newline among them, in both cases
within the first 320. Then nothing outside the array changes. -/
theorem queue_bounds_iff (fs : Fs) (q : Paging) (mem : Bytes.Memory) (as : List QueueAct) :
    (Meets (Kernel.queue fs) (Kernel.InQueue fs) (Kernel.boot q mem) as ↔
      Meets (Kernel.queue fs) Kernel.QueueRoom (Kernel.boot q mem) as) ∧
    ∀ k, Meets (Kernel.queue fs) Kernel.QueueRoom (Kernel.boot q mem) as →
      run (Kernel.queue fs) (Kernel.boot q mem) as = some k →
      k.Bounded ∧ ∀ n, ¬ (0 ≤ n ∧ n < 640) →
        k.input.commandBuf n = (Kernel.boot q mem).input.commandBuf n := by
  have hboot : (Kernel.boot q mem).Bounded := by simp [Kernel.Bounded, Kernel.boot]
  constructor
  · exact meets_iff (I := Kernel.Bounded) Kernel.Bounded.inQueue_iff
      (fun h hroom hs => (h.step hroom hs).1) hboot
  · intro k hG hrun
    refine run_invariant (I := fun k => k.Bounded ∧ ∀ n, ¬ (0 ≤ n ∧ n < 640) →
      k.input.commandBuf n = (Kernel.boot q mem).input.commandBuf n) ?_ ⟨hboot, fun _ _ => rfl⟩ hG hrun
    intro k1 a r h hroom hs
    obtain ⟨hb, hkept⟩ := h.1.step hroom hs
    exact ⟨hb, fun n hn => (hkept n hn).trans (h.2 n hn)⟩

instance (fs : Fs) (k : Kernel) (a : QueueAct) : Decidable (k.InQueue fs a) :=
  inferInstanceAs (Decidable ((∀ n ∈ k.touched a, 0 ≤ n ∧ n < 640) ∧ ∀ r, k.queue fs a = some r →
    0 ≤ r.2.input.commandPosition ∧ r.2.input.commandPosition ≤ 640))

instance (k : Kernel) : (a : QueueAct) → Decidable (k.QueueRoom a)
  | .act (.key c) => inferInstanceAs (Decidable (c = 0x0A →
      k.input.commandPosition + ((k.input.line k.currentVisible).bufPosition + 1) ≤ 640))
  | .act (.read buf nbytes) => inferInstanceAs (Decidable (k.Reads buf nbytes →
      nbytes ≤ min k.input.commandPosition 320 ∨
      ∃ j : Fin 320, (j.val : Int) < k.input.commandPosition ∧ k.input.commandBuf j.val = 0x0A))
  | .act (.altF _) | .act (.tick _ _ _) | .controlL => .isTrue trivial

/-- A line goes in and comes out. -/
theorem queue_bounds_iff_line : ∃ k, run (Kernel.queue smallFs) (Kernel.boot linkedPaging fun _ => 0)
      [.act (.tick 0 0 zeroEnv), .act (.key 0x61), .act (.key 0x0A), .act (.read localBuf 128)] = some k ∧
    k.Bounded := by
  have hrun : (run (Kernel.queue smallFs) (Kernel.boot linkedPaging fun _ => 0)
      [.act (.tick 0 0 zeroEnv), .act (.key 0x61), .act (.key 0x0A), .act (.read localBuf 128)]).isSome := by
    decide +kernel
  obtain ⟨k, hk⟩ := Option.isSome_iff_exists.mp hrun
  exact ⟨k, hk, ((queue_bounds_iff smallFs linkedPaging (fun _ => 0) _).2 k (by decide +kernel) hk).1⟩

/-- A line of five bytes in the first terminal and an empty one in the second; the first
reads two bytes, whose shift leaves two of the line's bytes standing where the newline
should be. -/
def underflow : List QueueAct :=
  [.act (.tick 0 0 zeroEnv), .act (.key 0x61), .act (.key 0x62), .act (.key 0x63), .act (.key 0x64),
    .act (.key 0x0A), .act (.altF 1), .act (.key 0x0A), .act (.read localBuf 2),
    .act (.tick 0 0 zeroEnv), .act (.read localBuf 128)]

/-- The second terminal takes five bytes where four are in use. -/
theorem queue_underflow : ∃ k, run (Kernel.queue smallFs) (Kernel.boot linkedPaging fun _ => 0) underflow =
      some k ∧ k.input.commandPosition = -1 ∧
    ¬ Meets (Kernel.queue smallFs) (Kernel.InQueue smallFs) (Kernel.boot linkedPaging fun _ => 0) underflow := by
  have hrun : (run (Kernel.queue smallFs) (Kernel.boot linkedPaging fun _ => 0) underflow).map
      (fun k => k.input.commandPosition) = some (-1) := by decide +kernel
  obtain ⟨k, hk, hpos⟩ := Option.map_eq_some_iff.mp hrun
  exact ⟨k, hk, hpos, by decide +kernel⟩

end Flipit

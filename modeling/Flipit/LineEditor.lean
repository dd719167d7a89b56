import Flipit.QueueBounds

/- The line editor.

   What the three terminals offer is one editor each, of a line of at most 127
   characters, and none of them is written as such: `add_to_buffer` and
   `clear_buffer` work on the line of `current_visible`, whichever that is when the
   key comes, and share `buf_position` between the test for room, Enter that goes
   past it, backspace and the clearing loop.

   `refLine` is the editor one terminal should be, and `received` picks what a
   terminal is fed out of the actions of all: the keys and Ctrl+L that come while it is
   visible, and the first tick, which empties the three lines. The visible terminal
   is told from the Alt+F keys alone. The driver's lines are the reference lines in
   every run (`line_editor`), so that switching in the middle of a line leaves three
   lines independent. `bufferWrites` lists the stores into `keyboard_buffer`: Enter in
   a full line stores at index 127, the last one. -/
namespace Flipit
open Machine Typed Input

/-- What a line editor is fed. -/
inductive Stroke where
  | key (c : UInt8)
  | controlL
  | start

/-- The reference editor. -/
def refLine (s : List UInt8) : Stroke → List UInt8
  | .key c =>
    if c = 0x0A then []
    else if c = 0x08 then s.dropLast
    else if s.length < 127 then s ++ [c] else s
  | .controlL => []
  | .start => []

namespace QueueAct

/-- What terminal `t` is fed by an action while `v` is visible; `started` says whether
there has been a tick. -/
def strokes (t v : Fin 3) (started : Bool) : QueueAct → List Stroke
  | .act (.key c) => if v = t then [.key c] else []
  | .controlL => if v = t then [.controlL] else []
  | .act (.tick _ _ _) => if started then [] else [.start]
  | _ => []

def shown (v : Fin 3) : QueueAct → Fin 3
  | .act (.altF dest) => dest
  | _ => v

def isTick : QueueAct → Bool
  | .act (.tick _ _ _) => true
  | _ => false

end QueueAct

/-- What terminal `t` is fed by a list of actions. -/
def received (t v : Fin 3) (started : Bool) : List QueueAct → List Stroke
  | [] => []
  | a :: as => a.strokes t v started ++ received t (a.shown v) (started || a.isTick) as

/-- The indices of the visible terminal's `keyboard_buffer` that an action stores to. -/
def Kernel.bufferWrites (k : Kernel) : QueueAct → List Nat
  | .act (.key c) =>
    let position := (k.input.line k.currentVisible).bufPosition
    if c = 0x0A then position :: List.range (position + 1)
    else if c = 0x08 then if position ≠ 0 then [position - 1] else []
    else if position = 127 then [] else [position]
  | .controlL => List.range (k.input.line k.currentVisible).bufPosition
  | _ => []

/-- The driver's lines are the reference lines. -/
structure Edits (v : Fin 3) (started : Bool) (lines : Fin 3 → List UInt8) (k : Kernel) : Prop where
  visible : k.currentVisible = v.val
  ticked : started = true ↔ k.terminalNum ≠ -1
  content : ∀ t : Fin 3, (k.input.line t.val).content = lines t
  short : ∀ t, (lines t).length ≤ 127

section
variable {fs : Fs} {k k' : Kernel} {a : QueueAct} {data : List UInt8} {v : Fin 3} {started : Bool}
  {lines : Fin 3 → List UInt8}

/-! ## The reference -/

theorem refLine_short {s : List UInt8} (h : s.length ≤ 127) (x : Stroke) : (refLine s x).length ≤ 127 := by
  cases x with
  | controlL => exact Nat.zero_le _
  | start => exact Nat.zero_le _
  | key c =>
    simp only [refLine]
    split_ifs with henter hback hroom
    · exact Nat.zero_le _
    · rw [List.length_dropLast]
      omega
    · rw [List.length_append, List.length_singleton]
      omega
    · exact h

theorem foldl_refLine_short {s : List UInt8} (h : s.length ≤ 127) (xs : List Stroke) :
    (xs.foldl refLine s).length ≤ 127 := by
  induction xs generalizing s with
  | nil => exact h
  | cons x xs ih => exact ih (refLine_short h x)

/-- In a line that is not too long, the driver's test for a full line is the reference's. -/
theorem edit_eq_refLine {s : List UInt8} (h : s.length ≤ 127) {c : UInt8} (hc : c ≠ 0x0A) :
    edit s c = refLine s (.key c) := by
  have hfull : s.length = 127 ↔ ¬ s.length < 127 := by omega
  simp only [edit, refLine, if_neg hc, hfull, ite_not]
  rfl

/-! ## One action -/

theorem key_line {inp : Input UInt8} {v : Int} (h : (inp.line v).content.length ≤ 127) (c : UInt8) :
    ((inp.addToBuffer v c).1.line v).content = refLine (inp.line v).content (.key c) := by
  by_cases hc : c = 0x0A
  · have hcode : code c = 0x0A := hc
    obtain ⟨-, -, -, hline, -⟩ := addToBuffer_submit inp v hcode
    rw [hline, Line.content_clearBuffer]
    simp only [refLine, if_pos hc]
  · have hcode : code c ≠ 0x0A := hc
    obtain ⟨-, -, hline, -⟩ := addToBuffer_edit (v := v) hcode
    rw [hline, edit_eq_refLine h hc]

theorem key_others (inp : Input UInt8) {v u : Int} (hu : u ≠ v) (c : UInt8) :
    (inp.addToBuffer v c).1.line u = inp.line u := by
  by_cases hc : code c = 0x0A
  · exact (addToBuffer_submit inp v hc).2.2.2.2 u hu
  · exact (addToBuffer_edit (v := v) hc).2.2.2.2 u hu

theorem read_content {t : Int} {buf : Nat} {nbytes ret : Int} {inp inp' : Input UInt8}
    (h : inp.terminalRead t buf nbytes = some (ret, data, inp')) (u : Int) :
    (inp'.line u).keyboardBuffer = (inp.line u).keyboardBuffer ∧
    (inp'.line u).bufPosition = (inp.line u).bufPosition := by
  rcases terminalRead_cases h with ⟨-, -, rfl⟩ | ⟨-, -, -, -, rfl⟩
  · exact ⟨rfl, rfl⟩
  · rw [shift_eq]
    by_cases hu : u = t
    · subst hu
      rw [onLine_line]
      exact ⟨rfl, rfl⟩
    · rw [onLine_line_ne hu]
      exact ⟨rfl, rfl⟩

theorem queue_terminals (h : k.queue fs a = some (data, k')) (hv : k.currentVisible = v.val) :
    k'.currentVisible = (a.shown v).val ∧
    k'.terminalNum = if a.isTick then (k.terminalNum + 1) % 3 else k.terminalNum := by
  cases a with
  | controlL =>
    rw [Kernel.queue] at h
    obtain ⟨-, h1⟩ := map_answer.mp h
    obtain ⟨m, cur, inp, rfl⟩ := Kernel.controlL_frame h1
    exact ⟨hv, rfl⟩
  | act a =>
    cases a with
    | key c =>
      obtain ⟨-, h1⟩ := map_answer.mp h
      obtain ⟨m, cur, rfl⟩ := Kernel.addToBuffer_frame h1
      exact ⟨hv, rfl⟩
    | altF dest =>
      obtain ⟨-, h1⟩ := map_answer.mp h
      obtain ⟨m, rfl⟩ := Kernel.termVisibleSwitch_frame h1
      refine ⟨if_pos ?_, rfl⟩
      omega
    | tick esp ebp env =>
      obtain ⟨⟨o, k1⟩, h1, h2⟩ := Option.map_eq_some_iff.mp h
      obtain ⟨-, rfl⟩ := Prod.mk.inj h2
      rcases Kernel.scheduler_cases h1 with ⟨-, i, entry, n, a, bytes, -, -, -, rfl⟩ | ⟨a, -, -, rfl⟩
      · exact ⟨hv, rfl⟩
      · exact ⟨hv, rfl⟩
    | read buf nbytes =>
      simp only [Kernel.queue, Kernel.act] at h
      split_ifs at h
      obtain ⟨q, h1, h2⟩ := Option.map_eq_some_iff.mp h
      obtain ⟨r, -, rfl⟩ := Option.map_eq_some_iff.mp h1
      obtain ⟨-, rfl⟩ := Prod.mk.inj h2
      exact ⟨hv, rfl⟩

theorem Edits.content_step (h : Edits v started lines k) (hs : k.queue fs a = some (data, k')) (t : Fin 3) :
    (k'.input.line t.val).content = (a.strokes t v started).foldl refLine (lines t) := by
  have hline := h.content t
  have hother : ¬ v = t → (t.val : Int) ≠ k.currentVisible := by
    intro hne
    rw [h.visible]
    omega
  cases a with
  | controlL =>
    rw [(queue_controlL hs).2.1]
    simp only [QueueAct.strokes]
    split_ifs with ht
    · subst ht
      rw [h.visible, onLine_line, Line.content_clearBuffer]
      rfl
    · rw [onLine_line_ne (hother ht), hline]
      rfl
  | act a =>
    have hc := act_cases hs
    cases a with
    | key c =>
      rw [hc.2.1]
      simp only [QueueAct.strokes]
      split_ifs with ht
      · subst ht
        rw [h.visible, key_line (by rw [hline]; exact h.short v) c, hline]
        rfl
      · rw [key_others k.input (hother ht), hline]
        rfl
    | altF dest =>
      rw [hc.2.1]
      exact hline
    | tick esp ebp env =>
      have hfresh : k.fresh t.val = !started := by
        have ht : isTerm t.val = true := isTerm_of_range (by omega)
        rw [Kernel.fresh, ht, Bool.and_true, Bool.eq_iff_iff, Bool.not_eq_true', ← Bool.not_eq_true, h.ticked,
          not_not, beq_iff_eq]
      rw [hc.2.1]
      simp only [QueueAct.strokes, Kernel.tickLines, hfresh]
      cases started with
      | true => exact hline
      | false => rfl
    | read buf nbytes =>
      obtain ⟨-, ⟨ret, hr⟩, -, -⟩ := hc
      obtain ⟨hbuf, hpos⟩ := read_content hr t.val
      rw [Line.content, hbuf, hpos]
      exact hline

theorem Edits.step (h : Edits v started lines k) (hs : k.queue fs a = some (data, k')) :
    Edits (a.shown v) (started || a.isTick) (fun t => (a.strokes t v started).foldl refLine (lines t)) k' := by
  obtain ⟨hvisible, hscheduled⟩ := queue_terminals hs h.visible
  refine ⟨hvisible, ?_, h.content_step hs, fun t => foldl_refLine_short (h.short t) _⟩
  rw [Bool.or_eq_true, h.ticked, hscheduled]
  cases a.isTick with
  | true =>
    have hnext : (k.terminalNum + 1) % 3 ≠ -1 := by omega
    simpa using hnext
  | false => simp

/-- After a run, each line is what the reference editor makes of what its terminal was fed. -/
theorem Edits.run {as : List QueueAct} (h : Edits v started lines k)
    (hrun : Machine.run (Kernel.queue fs) k as = some k') :
    ∃ v' started', Edits v' started' (fun t => (received t v started as).foldl refLine (lines t)) k' := by
  induction as generalizing k v started lines with
  | nil =>
    obtain rfl := Option.some.inj hrun
    exact ⟨v, started, h⟩
  | cons a as ih =>
    obtain ⟨⟨data, k1⟩, hs, hrun⟩ := run_cons.mp hrun
    obtain ⟨v', started', h'⟩ := ih (h.step hs) hrun
    refine ⟨v', started', ?_⟩
    simpa only [received, List.foldl_append] using h'

/-! ## The stores -/

/-- A key stores to the listed indices of the visible terminal's buffer only. -/
theorem key_stores {c : UInt8} {i : Nat} (hi : i ∉ k.bufferWrites (.act (.key c))) :
    ((k.input.addToBuffer k.currentVisible c).1.line k.currentVisible).keyboardBuffer i =
      (k.input.line k.currentVisible).keyboardBuffer i := by
  by_cases hc : c = 0x0A
  · have hcode : code c = 0x0A := hc
    obtain ⟨-, -, -, hline, -⟩ := addToBuffer_submit k.input k.currentVisible hcode
    simp only [Kernel.bufferWrites, if_pos hc, List.mem_cons, List.mem_range, not_or] at hi
    rw [hline]
    calc _ = ((k.input.line k.currentVisible).put c).keyboardBuffer i := if_neg hi.2
      _ = (k.input.line k.currentVisible).keyboardBuffer i := Function.update_of_ne hi.1 ..
  · have hcode : code c ≠ 0x0A := hc
    simp only [Kernel.bufferWrites, if_neg hc] at hi
    unfold Input.addToBuffer
    rw [if_neg hcode]
    by_cases hback : c = 0x08
    · have hcode : code c = 0x08 := hback
      rw [if_pos hback] at hi
      rw [if_pos hcode]
      split_ifs at hi ⊢
      · rw [onLine_line]
        exact Function.update_of_ne (by simpa using hi) ..
      · rfl
    · have hcode : code c ≠ 0x08 := hback
      rw [if_neg hback] at hi
      rw [if_neg hcode]
      split_ifs at hi ⊢
      · rfl
      · rw [onLine_line]
        exact Function.update_of_ne (by simpa using hi) ..

/-- An action stores to the listed indices of the visible terminal's buffer, and to no other
buffer. -/
theorem queue_stores (hs : k.queue fs a = some (data, k')) {t : Int} {i : Nat}
    (h : t = k.currentVisible → i ∉ k.bufferWrites a) :
    (k'.input.line t).keyboardBuffer i = (k.input.line t).keyboardBuffer i := by
  cases a with
  | controlL =>
    rw [(queue_controlL hs).2.1]
    by_cases ht : t = k.currentVisible
    · have hi := h ht
      subst ht
      rw [onLine_line]
      simp only [Kernel.bufferWrites, List.mem_range] at hi
      exact if_neg hi
    · rw [onLine_line_ne ht]
  | act a =>
    have hc := act_cases hs
    cases a with
    | key c =>
      rw [hc.2.1]
      by_cases ht : t = k.currentVisible
      · have hi := h ht
        subst ht
        exact key_stores hi
      · rw [key_others k.input ht]
    | altF dest => rw [hc.2.1]
    | tick esp ebp env =>
      rw [hc.2.1]
      simp only [Kernel.tickLines]
      split
      · rfl
      · rfl
    | read buf nbytes =>
      obtain ⟨-, ⟨ret, hr⟩, -, -⟩ := hc
      rw [(read_content hr t).1]

theorem bufferWrites_le (h : (k.input.line k.currentVisible).bufPosition ≤ 127) :
    ∀ i ∈ k.bufferWrites a, i ≤ 127 := by
  intro i hi
  cases a with
  | controlL =>
    have := List.mem_range.mp hi
    omega
  | act a =>
    cases a with
    | key c =>
      simp only [Kernel.bufferWrites] at hi
      split_ifs at hi with henter hback hempty hfull
      · simp only [List.mem_cons, List.mem_range] at hi
        omega
      · have := List.mem_singleton.mp hi
        omega
      · cases hi
      · cases hi
      · have := List.mem_singleton.mp hi
        omega
    | altF dest => cases hi
    | tick esp ebp env => cases hi
    | read buf nbytes => cases hi

end

/-- What Enter should do to the queue with the line `s` in terminal `v`: the line and a
newline go in at the position, which moves behind them; the line is empty then, and the
other terminals' lines stay. -/
structure Submits (k k' : Kernel) (v : Int) (s : List UInt8) : Prop where
  stored : ∀ j, j < s.length + 1 →
    (s ++ [0x0A])[j]? = some (k'.input.commandBuf (k.input.commandPosition + j))
  rest : ∀ n, n < k.input.commandPosition ∨ k.input.commandPosition + (s.length + 1) ≤ n →
    k'.input.commandBuf n = k.input.commandBuf n
  position : k'.input.commandPosition = k.input.commandPosition + (s.length + 1)
  empty : (k'.input.line v).content = []
  others : ∀ u, u ≠ v → k'.input.line u = k.input.line u

/-- In every run from boot of keys, Ctrl+L, visible switches, ticks and reads, in any order:
each terminal's line is the reference line of what the terminal was fed, of at most 127
characters; the next action stores to no index of `keyboard_buffer` behind 127; and an
Enter that finds the position in bounds and room in the queue submits exactly the
reference line of the visible terminal. -/
theorem line_editor (fs : Fs) (q : Paging) (mem : Bytes.Memory) (as : List QueueAct) (k : Kernel)
    (hrun : run (Kernel.queue fs) (Kernel.boot q mem) as = some k) :
    let line (t : Fin 3) := (received t 0 false as).foldl refLine []
    (∀ t : Fin 3, (k.input.line t.val).content = line t ∧ (k.input.line t.val).bufPosition ≤ 127) ∧
    (∀ a, (∀ i ∈ k.bufferWrites a, i ≤ 127) ∧
      ∀ data k' t i, k.queue fs a = some (data, k') → (t = k.currentVisible → i ∉ k.bufferWrites a) →
        (k'.input.line t).keyboardBuffer i = (k.input.line t).keyboardBuffer i) ∧
    ∃ v : Fin 3, k.currentVisible = v.val ∧
      ∀ data k', k.queue fs (.act (.key 0x0A)) = some (data, k') → 0 ≤ k.input.commandPosition →
        k.input.commandPosition + ((line v).length + 1) ≤ 640 → Submits k k' v.val (line v) := by
  intro line
  have hboot : Edits 0 false (fun _ => []) (Kernel.boot q mem) :=
    ⟨rfl, by simp [Kernel.boot], fun _ => rfl, fun _ => Nat.zero_le _⟩
  obtain ⟨v, started, h⟩ := hboot.run hrun
  have hshort : ∀ t : Fin 3, (k.input.line t.val).bufPosition ≤ 127 := by
    intro t
    rw [← Line.content_length, h.content]
    exact h.short t
  refine ⟨fun t => ⟨h.content t, hshort t⟩, fun a => ⟨?_, fun data k' t i hs hi => queue_stores hs hi⟩,
    v, h.visible, fun data k' hs _ _ => ?_⟩
  · apply bufferWrites_le
    rw [h.visible]
    exact hshort v
  · have hact : k.act fs (.key 0x0A) = some (data, k') := hs
    have hc := (act_cases hact).2.1
    have hlen : (k.input.line v.val).bufPosition = (line v).length := by
      rw [← Line.content_length, h.content]
    obtain ⟨hpos, hrest, hstored, hline, hothers⟩ :=
      addToBuffer_submit k.input v.val (c := (0x0A : UInt8)) rfl
    rw [hlen] at hpos hrest hstored
    rw [h.content] at hstored
    rw [h.visible] at hc
    constructor
    · rw [hc]
      exact hstored
    · rw [hc]
      exact hrest
    · rw [hc, hpos]
    · rw [hc, hline, Line.content_clearBuffer]
    · rw [hc]
      exact hothers

/-- Lines typed in turns in two terminals, with a correction; the first one is submitted. -/
def inTurns : List QueueAct :=
  [.act (.tick 0 0 zeroEnv), .act (.key 0x61), .act (.altF 1), .act (.key 0x78), .act (.altF 0), .act (.key 0x62),
    .act (.key 0x08), .act (.key 0x0A), .act (.key 0x63), .act (.altF 1), .act (.key 0x79)]

theorem line_editor_in_turns :
    ∃ k data k', run (Kernel.queue smallFs) (Kernel.boot linkedPaging fun _ => 0) inTurns = some k ∧
      (k.input.line 0).content = [0x63] ∧ (k.input.line 1).content = [0x78, 0x79] ∧
      k.queue smallFs (.act (.key 0x0A)) = some (data, k') ∧ Submits k k' 1 [0x78, 0x79] := by
  have hrun : (run (Kernel.queue smallFs) (Kernel.boot linkedPaging fun _ => 0) inTurns).map (fun k =>
      (k.currentVisible, k.input.commandPosition, (k.queue smallFs (.act (.key 0x0A))).isSome)) =
      some (1, 2, true) := by decide +kernel
  obtain ⟨k, hk, hq⟩ := Option.map_eq_some_iff.mp hrun
  simp only [Prod.mk.injEq] at hq
  obtain ⟨hvisible, hposition, henter⟩ := hq
  obtain ⟨⟨data, k'⟩, hk'⟩ := Option.isSome_iff_exists.mp henter
  obtain ⟨hlines, -, v, hv, hsubmits⟩ := line_editor smallFs linkedPaging (fun _ => 0) inTurns k hk
  obtain rfl : v = 1 := Fin.ext (by rw [hvisible] at hv; exact (Int.ofNat.inj hv).symm)
  refine ⟨k, data, k', hk, (hlines 0).1, (hlines 1).1, hk', hsubmits data k' hk' ?_ ?_⟩
  · rw [hposition]
    decide
  · rw [hposition]
    decide

end Flipit

import Flipit.Machine
import Mathlib.Algebra.Group.Int.Defs
import Mathlib.Algebra.Group.Nat.Defs
import Mathlib.Data.Int.Basic
import Mathlib.Logic.Function.Basic

/- The terminal driver (`terminal_driver.c`): the edit buffer of each terminal and
   the one queue of submitted lines.

   Keystrokes edit the buffer of the visible terminal; Enter appends the line to
   `command_buf` at `command_position`, both shared by the three terminals, and
   raises the visible terminal's `command_ready_flag`. `terminal_read` waits for
   the flag of the scheduled terminal, copies from the front of `command_buf` up to
   a newline or `nbytes` bytes, and shifts what is left: its loop moves as many
   bytes as were taken.

   The driver never looks at a byte except to compare it with newline and
   backspace, so it is written over any type that carries a byte (`Typed`). The
   kernel runs it on `UInt8`; running the same functions on bytes that carry the
   terminal they were typed into says where a byte came from.

   Correspondence:
     `add_to_buffer` (with its echo as a flag)   ↔ `Input.addToBuffer`
     `copy_command_buffer`, `clear_buffer`       ↔ the same names
     `terminal_read`                             ↔ `Input.terminalRead`
   `command_buf` is indexed by `Int` like the C array, whatever the position is;
   its 640 bytes bound the runs a statement is about, not the functions. -/
namespace Flipit

/-- A type whose values carry a byte. -/
class Typed (α : Type) where
  code : α → UInt8
  null : α

instance : Typed UInt8 := ⟨id, 0⟩

open Typed

variable {α : Type}

/-- The edit fields of `terminal_t`. -/
structure Line (α : Type) where
  keyboardBuffer : Nat → α
  bufPosition : Nat
  commandReadyFlag : Int

/-- The driver's data: the shared queue and one edit buffer for each terminal. -/
structure Input (α : Type) where
  commandBuf : Int → α
  commandPosition : Int
  line : Int → Line α

namespace Line

/-- Store a character and move on. -/
def put (l : Line α) (c : α) : Line α :=
  { l with
    keyboardBuffer := Function.update l.keyboardBuffer l.bufPosition c
    bufPosition := l.bufPosition + 1 }

/-- Step back and zero the character. -/
def erase [Typed α] (l : Line α) : Line α :=
  { l with
    keyboardBuffer := Function.update l.keyboardBuffer (l.bufPosition - 1) null
    bufPosition := l.bufPosition - 1 }

def clearBuffer [Typed α] (l : Line α) : Line α :=
  { l with
    keyboardBuffer := fun i => if i < l.bufPosition then null else l.keyboardBuffer i
    bufPosition := 0 }

/-- The characters typed since the last Enter. -/
def content (l : Line α) : List α := (List.range l.bufPosition).map l.keyboardBuffer

end Line

namespace Input

/-- Change the buffer of one terminal. -/
def onLine (inp : Input α) (t : Int) (f : Line α → Line α) : Input α :=
  { inp with line := Function.update inp.line t (f (inp.line t)) }

/-- One turn of the loop of `copy_command_buffer`. -/
def enqueue (inp : Input α) (c : α) : Input α :=
  { inp with
    commandBuf := Function.update inp.commandBuf inp.commandPosition c
    commandPosition := inp.commandPosition + 1 }

def copyCommandBuffer (inp : Input α) (v : Int) : Input α :=
  (List.range (inp.line v).bufPosition).foldl
    (fun s i => s.enqueue ((inp.line v).keyboardBuffer i)) inp

/-- `add_to_buffer` with terminal `v` visible: the driver's data after it, and whether
it echoed the character. -/
def addToBuffer [Typed α] (inp : Input α) (v : Int) (c : α) : Input α × Bool :=
  if code c = 0x0A then
    let inp := (inp.onLine v fun l => l.put c).copyCommandBuffer v
    let inp := inp.onLine v fun l => { l with commandReadyFlag := 1 }
    (inp.onLine v Line.clearBuffer, true)
  else if code c = 0x08 then
    if (inp.line v).bufPosition ≠ 0 then (inp.onLine v Line.erase, true) else (inp, false)
  else if (inp.line v).bufPosition = 127 then (inp, false)
  else (inp.onLine v fun l => l.put c, true)

/-- The copying loop of `terminal_read` from index `i` on, with that many bytes still
allowed: where it stops. It does not look at `command_position`. -/
def readLoop [Typed α] (buf : Int → α) : Nat → Nat → Nat
  | 0, i => i
  | left + 1, i => if code (buf i) = 0x0A then i + 1 else readLoop buf left (i + 1)

/-- One turn of the shifting loop of `terminal_read`. -/
def shiftOne (i : Nat) (inp : Input α) (j : Nat) : Input α :=
  { inp with
    commandBuf := Function.update inp.commandBuf j (inp.commandBuf ((j : Int) + i))
    commandPosition := inp.commandPosition - 1 }

/-- The shifting loop: as many turns as bytes were taken. -/
def shift (inp : Input α) (i : Nat) : Input α := (List.range i).foldl (shiftOne i) inp

/-- `terminal_read` with terminal `t` scheduled: its return value, the bytes it stores
and the driver's data after it. `none`: it waits for the flag. -/
def terminalRead [Typed α] (inp : Input α) (t : Int) (buf : Nat) (nbytes : Int) :
    Option (Int × List α × Input α) :=
  if nbytes < 0 then some (-1, [], inp)
  else if buf = 0 then some (-1, [], inp)
  else if (inp.line t).commandReadyFlag = -1 then none
  else
    let i := readLoop inp.commandBuf nbytes.toNat 0
    some (i, (List.range i).map fun j : Nat => inp.commandBuf j,
      (inp.shift i).onLine t fun l => { l with commandReadyFlag := -1 })

/-- The submitted bytes not yet returned, as `command_position` counts them. -/
def unread (inp : Input α) : List α :=
  (List.range inp.commandPosition.toNat).map fun j : Nat => inp.commandBuf j

end Input

/-! ## The edit buffer -/

/-- What a key other than Enter does to the characters typed so far. -/
def edit [Typed α] (s : List α) (c : α) : List α :=
  if code c = 0x08 then s.dropLast else if s.length = 127 then s else s ++ [c]

namespace Line

@[simp] theorem content_length (l : Line α) : l.content.length = l.bufPosition := by
  simp [content]

theorem content_put (l : Line α) (c : α) : (l.put c).content = l.content ++ [c] := by
  unfold content put
  simp only [List.range_succ, List.map_append, List.map_singleton, Function.update_self]
  congr 1
  apply List.map_congr_left
  intro i hi
  exact Function.update_of_ne (Nat.ne_of_lt (List.mem_range.mp hi)) _ _

theorem content_erase [Typed α] (l : Line α) : l.erase.content = l.content.dropLast := by
  unfold content erase
  rcases hb : l.bufPosition with _ | n
  · rfl
  · simp only [List.range_succ, List.map_append, List.map_singleton, List.dropLast_concat,
      Nat.add_sub_cancel]
    apply List.map_congr_left
    intro i hi
    exact Function.update_of_ne (Nat.ne_of_lt (List.mem_range.mp hi)) _ _

theorem content_clearBuffer [Typed α] (l : Line α) : l.clearBuffer.content = [] := rfl

end Line

namespace Input

@[simp] theorem onLine_commandPosition (inp : Input α) (t : Int) (f : Line α → Line α) :
    (inp.onLine t f).commandPosition = inp.commandPosition := rfl
@[simp] theorem onLine_unread (inp : Input α) (t : Int) (f : Line α → Line α) :
    (inp.onLine t f).unread = inp.unread := rfl
@[simp] theorem onLine_line (inp : Input α) (t : Int) (f : Line α → Line α) :
    (inp.onLine t f).line t = f (inp.line t) := Function.update_self ..
theorem onLine_line_ne {inp : Input α} {t u : Int} (h : u ≠ t) (f : Line α → Line α) :
    (inp.onLine t f).line u = inp.line u := Function.update_of_ne h ..

/-- A key other than Enter edits the visible terminal's line and nothing else. -/
theorem addToBuffer_edit [Typed α] {inp : Input α} {v : Int} {c : α} (hc : code c ≠ 0x0A) :
    let inp' := (inp.addToBuffer v c).1
    inp'.commandBuf = inp.commandBuf ∧ inp'.commandPosition = inp.commandPosition ∧
    (inp'.line v).content = edit (inp.line v).content c ∧
    (∀ u, (inp'.line u).commandReadyFlag = (inp.line u).commandReadyFlag) ∧
    (∀ u, u ≠ v → inp'.line u = inp.line u) := by
  have hflag : ∀ f : Line α → Line α, (f (inp.line v)).commandReadyFlag = (inp.line v).commandReadyFlag →
      ∀ u, ((inp.onLine v f).line u).commandReadyFlag = (inp.line u).commandReadyFlag := by
    intro f hf u
    by_cases hu : u = v
    · subst hu; rw [onLine_line, hf]
    · rw [onLine_line_ne hu]
  unfold addToBuffer edit
  rw [if_neg hc]
  by_cases hb : code c = 0x08
  · rw [if_pos hb, if_pos hb]
    by_cases h0 : (inp.line v).bufPosition = 0
    · have hnil : (inp.line v).content = [] := by simp [Line.content, h0]
      simp [h0, hnil]
    · simp only [ne_eq, h0, not_false_eq_true, if_true]
      exact ⟨rfl, rfl, by rw [onLine_line, Line.content_erase], hflag _ rfl,
        fun u hu => onLine_line_ne hu _⟩
  · rw [if_neg hb, if_neg hb, Line.content_length]
    by_cases h0 : (inp.line v).bufPosition = 127
    · simp [h0]
    · simp only [h0, if_false]
      exact ⟨rfl, rfl, by rw [onLine_line, Line.content_put], hflag _ rfl,
        fun u hu => onLine_line_ne hu _⟩

/-! ## The queue -/

theorem enqueue_frame (inp : Input α) (s : List α) :
    (s.foldl enqueue inp).commandPosition = inp.commandPosition + s.length ∧
    (s.foldl enqueue inp).line = inp.line ∧
    (∀ n, n < inp.commandPosition ∨ inp.commandPosition + s.length ≤ n →
      (s.foldl enqueue inp).commandBuf n = inp.commandBuf n) ∧
    ∀ j, j < s.length → s[j]? = some ((s.foldl enqueue inp).commandBuf (inp.commandPosition + j)) := by
  induction s generalizing inp with
  | nil => simp
  | cons c s ih =>
    obtain ⟨hpos, hline, hbuf, hstored⟩ := ih (inp.enqueue c)
    rw [List.foldl_cons]
    refine ⟨?_, hline, fun n hn => ?_, fun j hj => ?_⟩
    · rw [hpos, List.length_cons]
      simp only [enqueue]
      omega
    · rw [List.length_cons] at hn
      rw [hbuf n (by simp only [enqueue]; omega)]
      exact Function.update_of_ne (by omega) ..
    · cases j with
      | zero =>
        -- the later turns store behind it
        rw [hbuf _ (by simp only [enqueue]; omega)]
        simp [enqueue]
      | succ j =>
        rw [List.length_cons] at hj
        have hnext : inp.commandPosition + ((j + 1 : Nat) : Int) = (inp.enqueue c).commandPosition + j := by
          simp only [enqueue]
          omega
        rw [List.getElem?_cons_succ, hstored j (by omega), hnext]

theorem copyCommandBuffer_eq (inp : Input α) (v : Int) :
    inp.copyCommandBuffer v = (inp.line v).content.foldl enqueue inp := by
  rw [copyCommandBuffer, Line.content, List.foldl_map]

/-- Enter stores the line with its newline at the position, wherever that is, and empties
the line. -/
theorem addToBuffer_submit [Typed α] (inp : Input α) (v : Int) {c : α} (hc : code c = 0x0A) :
    let inp' := (inp.addToBuffer v c).1
    inp'.commandPosition = inp.commandPosition + ((inp.line v).bufPosition + 1) ∧
    (∀ n, n < inp.commandPosition ∨ inp.commandPosition + ((inp.line v).bufPosition + 1) ≤ n →
      inp'.commandBuf n = inp.commandBuf n) ∧
    (∀ j, j < (inp.line v).bufPosition + 1 →
      ((inp.line v).content ++ [c])[j]? = some (inp'.commandBuf (inp.commandPosition + j))) ∧
    inp'.line v = { (inp.line v).put c with commandReadyFlag := 1 }.clearBuffer ∧
    ∀ u, u ≠ v → inp'.line u = inp.line u := by
  have hcopy := copyCommandBuffer_eq (inp.onLine v fun l => l.put c) v
  rw [onLine_line, Line.content_put] at hcopy
  obtain ⟨hpos, hline, hbuf, hstored⟩ := enqueue_frame (inp.onLine v fun l => l.put c)
    ((inp.line v).content ++ [c])
  rw [← hcopy] at hpos hline hbuf hstored
  rw [List.length_append, Line.content_length] at hpos hbuf hstored
  simp only [addToBuffer, if_pos hc]
  refine ⟨hpos, hbuf, hstored, ?_, fun u hu => ?_⟩
  · rw [onLine_line, onLine_line, hline, onLine_line]
  · rw [onLine_line_ne hu, onLine_line_ne hu, hline, onLine_line_ne hu]

theorem unread_append {inp inp' : Input α} {s : List α} (h : 0 ≤ inp.commandPosition)
    (hpos : inp'.commandPosition = inp.commandPosition + s.length)
    (hrest : ∀ n, n < inp.commandPosition → inp'.commandBuf n = inp.commandBuf n)
    (hstored : ∀ j, j < s.length → s[j]? = some (inp'.commandBuf (inp.commandPosition + j))) :
    inp'.unread = inp.unread ++ s := by
  have hn : inp'.commandPosition.toNat = inp.commandPosition.toNat + s.length := by omega
  unfold unread
  rw [hn, List.range_add, List.map_append, List.map_map]
  congr 1
  · apply List.map_congr_left
    intro j hj
    have := List.mem_range.mp hj
    exact hrest j (by omega)
  · apply List.ext_getElem?
    intro j
    by_cases hj : j < s.length
    · have hat : ((inp.commandPosition.toNat + j : Nat) : Int) = inp.commandPosition + j := by omega
      rw [List.getElem?_map, List.getElem?_range hj, Option.map_some, hstored j hj, Function.comp_apply, hat]
    · rw [List.getElem?_eq_none (by simp; omega), List.getElem?_eq_none (by omega)]

/-- Enter appends the line to the queue, raises the flag and empties the buffer. -/
theorem addToBuffer_enter [Typed α] {inp : Input α} {v : Int} {c : α} (hc : code c = 0x0A)
    (h : 0 ≤ inp.commandPosition) :
    let inp' := (inp.addToBuffer v c).1
    inp'.unread = inp.unread ++ ((inp.line v).content ++ [c]) ∧
    inp'.commandPosition = inp.commandPosition + ((inp.line v).content ++ [c]).length ∧
    (inp'.line v).content = [] ∧ (inp'.line v).commandReadyFlag = 1 ∧
    (∀ u, u ≠ v → inp'.line u = inp.line u) := by
  obtain ⟨hpos, hrest, hstored, hline, hothers⟩ := addToBuffer_submit inp v hc
  have hlen : ((inp.line v).content ++ [c]).length = (inp.line v).bufPosition + 1 := by simp
  have hpos' : (inp.addToBuffer v c).1.commandPosition =
      inp.commandPosition + ((inp.line v).content ++ [c]).length := by rw [hpos, hlen]; rfl
  refine ⟨?_, hpos', by rw [hline]; rfl, by rw [hline]; rfl, hothers⟩
  apply unread_append h hpos' fun n hn => hrest n (.inl hn)
  rw [hlen]
  exact hstored

@[simp] theorem unread_length (inp : Input α) :
    inp.unread.length = inp.commandPosition.toNat := by simp [unread]

/-- The shifting loop moves `i` bytes down by `i` and leaves the others where they are. -/
theorem shift_eq (inp : Input α) (i : Nat) :
    inp.shift i = { inp with
      commandBuf := fun a => if 0 ≤ a ∧ a < i then inp.commandBuf (a + i) else inp.commandBuf a
      commandPosition := inp.commandPosition - i } := by
  have h := Machine.foldl_range (f := shiftOne i) (n := i)
    (fun j => ({ inp with
      commandBuf := fun a => if 0 ≤ a ∧ a < j then inp.commandBuf (a + i) else inp.commandBuf a
      commandPosition := inp.commandPosition - j } : Input α)) fun j hj => by
      simp only [shiftOne, Input.mk.injEq, and_true]
      constructor
      · funext a
        -- cell `j` gets its byte, which no earlier turn has written
        by_cases ha : a = j
        · subst ha
          rw [Function.update_self, if_neg (by omega), if_pos (by omega)]
        · rw [Function.update_of_ne ha]
          by_cases h1 : 0 ≤ a ∧ a < (j : Int)
          · rw [if_pos h1, if_pos (by omega)]
          · rw [if_neg h1, if_neg (by omega)]
      · omega
  have h0 : ({ inp with
      commandBuf := fun a => if 0 ≤ a ∧ a < (0 : Nat) then inp.commandBuf (a + i) else inp.commandBuf a
      commandPosition := inp.commandPosition - (0 : Nat) } : Input α) = inp := by
    have hb : (fun a : Int => if 0 ≤ a ∧ a < (0 : Nat) then inp.commandBuf (a + i) else
        inp.commandBuf a) = inp.commandBuf := by funext a; exact if_neg (by omega)
    rw [hb, Int.ofNat_zero, Int.sub_zero]
  rw [h0] at h
  exact h

theorem shift_unread (inp : Input α) (i : Nat) :
    (inp.shift i).unread = (List.range (inp.commandPosition.toNat - i)).map fun j : Nat =>
      if j < i then inp.commandBuf ((j + i : Nat) : Int) else inp.commandBuf j := by
  rw [shift_eq, unread]
  have hn : (inp.commandPosition - i).toNat = inp.commandPosition.toNat - i := by omega
  simp only [hn]
  apply List.map_congr_left
  intro j _
  by_cases h : j < i
  · rw [if_pos (by omega), if_pos h]; push_cast; rfl
  · rw [if_neg (by omega), if_neg h]

theorem mem_shift_unread {inp : Input α} {i : Nat} {x : α} (h : x ∈ (inp.shift i).unread) :
    x ∈ inp.unread := by
  rw [shift_unread, List.mem_map] at h
  obtain ⟨j, hj, rfl⟩ := h
  have := List.mem_range.mp hj
  rw [unread, List.mem_map]
  by_cases hi : j < i
  · exact ⟨j + i, List.mem_range.mpr (by omega), by rw [if_pos hi]⟩
  · exact ⟨j, List.mem_range.mpr (by omega), by rw [if_neg hi]⟩

/-- The shift is complete for the `i` bytes taken: each unread byte that the loop does
not move has, `i` places behind it, the byte that belongs in its place. -/
def Shifted (q : List α) (i : Nat) : Prop :=
  ∀ j, i ≤ j → j < q.length - i → q[j]? = q[j + i]?

theorem shift_unread_drop {inp : Input α} {i : Nat} (h : Shifted inp.unread i) :
    (inp.shift i).unread = inp.unread.drop i := by
  have hget : ∀ j, j < inp.commandPosition.toNat → inp.unread[j]? = some (inp.commandBuf j) := by
    intro j hj
    simp [unread, hj]
  apply List.ext_getElem?
  intro j
  rw [List.getElem?_drop, shift_unread]
  by_cases hj : j < inp.commandPosition.toNat - i
  · rw [List.getElem?_map, List.getElem?_range hj, Option.map_some, hget (i + j) (by omega)]
    by_cases hi : j < i
    · rw [if_pos hi, Nat.add_comm]
    · rw [if_neg hi]
      have := h j (by omega) (by rw [unread_length]; omega)
      rw [hget j (by omega), hget (j + i) (by omega)] at this
      rw [this, Nat.add_comm]
  · rw [List.getElem?_eq_none (by simp; omega), List.getElem?_eq_none (by simp; omega)]

/-! ## A read -/

/-- The bytes a read of at most `n` bytes takes off the queue `q`: through its first
newline, or `n` of them. -/
def takeLine [Typed α] : List α → Nat → List α
  | _, 0 => []
  | [], _ + 1 => []
  | c :: q, n + 1 => if code c = 0x0A then [c] else c :: takeLine q n

theorem takeLine_start [Typed α] (q : List α) (n : Nat) : takeLine q n <+: q := by
  fun_induction takeLine q n with
  | case1 => exact List.nil_prefix
  | case2 => exact List.nil_prefix
  | case3 c q n h => exact ⟨q, rfl⟩
  | case4 c q n h ih => exact (List.prefix_cons_inj c).mpr ih

theorem readLoop_eq [Typed α] (inp : Input α) (n i : Nat)
    (h : ∃ c ∈ inp.unread.drop i, code c = 0x0A) :
    readLoop inp.commandBuf n i = i + (takeLine (inp.unread.drop i) n).length := by
  induction n generalizing i with
  | zero => simp [readLoop, takeLine]
  | succ n ih =>
    have hi : i < inp.commandPosition.toNat := by
      obtain ⟨c, hc, -⟩ := h
      have := List.length_pos_of_mem hc
      rw [List.length_drop, unread_length] at this
      omega
    have hq : inp.unread.drop i = inp.commandBuf i :: inp.unread.drop (i + 1) := by
      rw [List.drop_eq_getElem_cons (by rw [unread_length]; exact hi)]
      simp [unread]
    rw [readLoop, hq, takeLine]
    by_cases hc : code (inp.commandBuf i) = 0x0A
    · rw [if_pos hc, if_pos hc]; rfl
    · rw [if_neg hc, if_neg hc, ih (i + 1) ?_, List.length_cons]
      · omega
      · obtain ⟨c, hm, hn⟩ := h
        rw [hq] at hm
        rcases List.mem_cons.mp hm with rfl | hm
        · exact absurd hn hc
        · exact ⟨c, hm, hn⟩

/-- A read that completes refuses its arguments, or takes what the copying loop met. -/
theorem terminalRead_cases [Typed α] {inp inp' : Input α} {t : Int} {buf : Nat} {nbytes ret : Int}
    {out : List α} (h : inp.terminalRead t buf nbytes = some (ret, out, inp')) :
    ((nbytes < 0 ∨ buf = 0) ∧ out = [] ∧ inp' = inp) ∨
    (0 ≤ nbytes ∧ buf ≠ 0 ∧ (inp.line t).commandReadyFlag ≠ -1 ∧
      out = (List.range (readLoop inp.commandBuf nbytes.toNat 0)).map (fun j : Nat => inp.commandBuf j) ∧
      inp' = (inp.shift (readLoop inp.commandBuf nbytes.toNat 0)).onLine t fun l =>
        { l with commandReadyFlag := -1 }) := by
  unfold terminalRead at h
  split_ifs at h with hn hbuf hflag
  · simp only [Option.some.injEq, Prod.mk.injEq] at h
    exact .inl ⟨.inl hn, h.2.1.symm, h.2.2.symm⟩
  · simp only [Option.some.injEq, Prod.mk.injEq] at h
    exact .inl ⟨.inr hbuf, h.2.1.symm, h.2.2.symm⟩
  · simp only [Option.some.injEq, Prod.mk.injEq] at h
    exact .inr ⟨by omega, hbuf, hflag, h.2.1.symm, h.2.2.symm⟩

/-- A read of a queue that holds a newline takes its first line, or `n` bytes of it: the
copying loop stays inside the queue. -/
theorem terminalRead_eq [Typed α] {inp : Input α} {t : Int} {buf n : Nat} (hbuf : buf ≠ 0)
    (hflag : (inp.line t).commandReadyFlag ≠ -1) (h : ∃ c ∈ inp.unread, code c = 0x0A) :
    let taken := takeLine inp.unread n
    inp.terminalRead t buf n = some ((taken.length : Int), taken,
      (inp.shift taken.length).onLine t fun l => { l with commandReadyFlag := -1 }) := by
  intro taken
  have hr : readLoop inp.commandBuf n 0 = taken.length := by
    rw [readLoop_eq inp n 0 (by simpa using h), Nat.zero_add, List.drop_zero]
  have hdata : (List.range taken.length).map (fun j : Nat => inp.commandBuf j) = taken := by
    have hp : taken <+: inp.unread := takeLine_start inp.unread n
    have hle := hp.length_le
    rw [unread_length] at hle
    rw [← Nat.min_eq_left hle, ← List.take_range, List.map_take]
    exact (List.prefix_iff_eq_take.mp hp).symm
  unfold terminalRead
  rw [if_neg (by omega), if_neg hbuf, if_neg hflag]
  simp only [Int.toNat_natCast, hr, hdata]

end Input

end Flipit

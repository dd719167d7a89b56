import Mathlib.Data.List.TakeWhile
import Flipit.SystemCall

/- How `execute` takes a command apart, loop by loop.

   Three loops copy bytes. The first fills `filename_buf` and stops at a separator; its
   length is tested once it has stopped. The second fills `arg_buff` and stops when the
   index into the command, not the one into the buffer, reaches 128. The third copies
   `arg_buff` into the block and stops at the terminator the second has set. `parse` and
   `pcbLoop` are these loops with every store they make, `parse_cases` is what they do on
   every command, and `parse_result` says that what they leave in the buffers is what
   `parseCommand` gives. All stores lie inside the buffers exactly if the name has at
   most 128 bytes (`parse_stores_iff`). -/
namespace Flipit
open Bytes

/-! ## The loops -/

/-- A byte of a file name: no separator. -/
def nameByte (c : UInt8) : Bool := !isEnd c && c != 0x20

/-- The loops that strip spaces: the bytes left, and the index of the first of them. -/
def skipSpaces : List UInt8 → Nat → List UInt8 × Nat
  | [], i => ([], i)
  | c :: s, i => if c == 0x20 then skipSpaces s (i + 1) else (c :: s, i)

/-- What a copy loop leaves: the stores it made, the bytes left, and its two indices. -/
structure Copied where
  stores : List (UInt8 × Nat)
  rest : List UInt8
  i : Nat
  j : Nat

/-- A copy loop from index `i` of the command, whose bytes from there are given, to index
`j` of a buffer. Behind the bytes of the command lies its terminator, where it stops. -/
def copyLoop (go : Nat → UInt8 → Bool) : List UInt8 → Nat → Nat → Copied
  | [], i, j => ⟨[], [], i, j⟩
  | c :: s, i, j =>
    if go i c then
      let r := copyLoop go s (i + 1) (j + 1)
      { r with stores := (c, j) :: r.stores }
    else ⟨[], c :: s, i, j⟩

/-- The stores of the parsing, and whether it goes on to the lookup. -/
structure Parse where
  filenameBuf : List (UInt8 × Nat)
  argBuff : List (UInt8 × Nat)
  accepted : Bool
  deriving DecidableEq

/-- The first part of `execute`, up to the lookup. -/
def parse (command : List UInt8) : Parse :=
  if isEnd (command.headD 0) then ⟨[], [], false⟩
  else
    let (s, i) := skipSpaces command 0
    if isEnd (s.headD 0) then ⟨[], [], false⟩
    else
      let name := copyLoop (fun _ => nameByte) s i 0
      if name.j > 32 then ⟨name.stores, [], false⟩
      else
        let (s, i) := skipSpaces name.rest name.i
        let arg := copyLoop (fun i c => !isEnd c && decide (i < 128)) s i 0
        ⟨name.stores ++ [(0, name.j)], arg.stores ++ [(0, arg.j)], true⟩

/-- The stores of the loop that copies `arg_buff` into the block, in its first `fuel` turns
from index `l` on. -/
def pcbLoop (argBuff : Memory) : Nat → Nat → List (UInt8 × Nat)
  | 0, _ => []
  | fuel + 1, l =>
    if argBuff l != 0 then (argBuff l, l) :: pcbLoop argBuff fuel (l + 1) else [(0, l)]

/-- The name token of a command. -/
def nameToken (command : List UInt8) : List UInt8 :=
  (command.dropWhile (· == 0x20)).takeWhile nameByte

def nameStart (command : List UInt8) : Nat := (runFrom (fun _ c => c == 0x20) command 0).length

def nameEnd (command : List UInt8) : Nat := nameStart command + (nameToken command).length

/-- The index where the argument begins. -/
def argStart (command : List UInt8) : Nat :=
  nameEnd command + (runFrom (fun _ c => c == 0x20) (command.drop (nameEnd command)) (nameEnd command)).length

/-- The argument of a command. -/
def argToken (command : List UInt8) : List UInt8 :=
  runFrom (fun i c => !isEnd c && decide (i < 128)) (command.drop (argStart command)) (argStart command)

/-- The two tokens of a command by their places in it: spaces, the name, spaces, and the
argument, which also ends before index 128. -/
structure Tokens (command name arg : List UInt8) : Prop where
  places : ∃ p q r e,
    MaxRun (fun _ c => c == 0x20) (cstr command) 0 p ∧
    MaxRun (fun _ => nameByte) (cstr command) p q ∧ name = segment (cstr command) p q ∧
    MaxRun (fun _ c => c == 0x20) (cstr command) q r ∧
    MaxRun (fun i c => !isEnd c && decide (i < 128)) (cstr command) r e ∧
    arg = segment (cstr command) r e

theorem skipSpaces_eq (s : List UInt8) (i : Nat) :
    skipSpaces s i = (s.dropWhile (· == 0x20), i + (runFrom (fun _ c => c == 0x20) s i).length) := by
  induction s generalizing i with
  | nil => rfl
  | cons c s ih =>
    rw [skipSpaces, runFrom, List.dropWhile_cons]
    split
    · rw [ih, List.length_cons, Nat.add_assoc, Nat.add_comm 1]
    · rfl

theorem copyLoop_eq (go : Nat → UInt8 → Bool) (s : List UInt8) (i j : Nat) :
    copyLoop go s i j = ⟨(runFrom go s i).zipIdx j, s.drop (runFrom go s i).length,
      i + (runFrom go s i).length, j + (runFrom go s i).length⟩ := by
  induction s generalizing i j with
  | nil => rfl
  | cons c s ih =>
    rw [copyLoop, runFrom]
    split
    · rw [ih]
      simp only [List.zipIdx_cons, List.length_cons, List.drop_succ_cons]
      rw [Nat.add_assoc, Nat.add_assoc, Nat.add_comm 1]
    · rfl

theorem dropWhile_eq_drop (p : UInt8 → Bool) (s : List UInt8) :
    s.dropWhile p = s.drop (s.takeWhile p).length := by
  have h : (s.takeWhile p ++ s.dropWhile p).drop (s.takeWhile p).length = s.dropWhile p :=
    List.drop_left
  rw [List.takeWhile_append_dropWhile] at h
  exact h.symm

theorem pcbLoop_eq {argBuff : Memory} {t : List UInt8} {l : Nat}
    (ht : ∀ j, j ≤ t.length → argBuff (l + j) = (t ++ [0]).getD j 0) (h0 : 0 ∉ t) (fuel : Nat) :
    pcbLoop argBuff fuel l = ((t ++ [0]).zipIdx l).take fuel := by
  induction t generalizing fuel l with
  | nil =>
    cases fuel with
    | zero => rfl
    | succ fuel =>
      have hl : argBuff l = 0 := ht 0 (le_refl _)
      rw [pcbLoop, if_neg (by simpa using hl)]
      simp
  | cons c t ih =>
    cases fuel with
    | zero => rfl
    | succ fuel =>
      have hl : argBuff l = c := ht 0 (Nat.zero_le _)
      have hc : c ≠ 0 := fun he => h0 (he ▸ List.mem_cons_self)
      have hrest : ∀ j, j ≤ t.length → argBuff (l + 1 + j) = (t ++ [0]).getD j 0 := by
        intro j hj
        rw [Nat.add_assoc, Nat.add_comm 1 j, ht (j + 1) (by simpa using hj)]
        rfl
      rw [pcbLoop, hl, if_pos (by simpa using hc), ih hrest fun h => h0 (List.mem_cons_of_mem _ h)]
      rfl

/-! ## What they do on every command -/

section
variable (command : List UInt8)

theorem drop_nameStart : command.dropWhile (· == 0x20) = command.drop (nameStart command) := by
  rw [dropWhile_eq_drop, nameStart, runFrom_takeWhile]

theorem runFrom_nameStart : runFrom (fun _ => nameByte) (command.drop (nameStart command))
    (nameStart command) = nameToken command := by
  rw [runFrom_takeWhile, nameToken, drop_nameStart]

theorem drop_argStart : ((command.drop (nameStart command)).drop (nameToken command).length).dropWhile
    (· == 0x20) = command.drop (argStart command) := by
  rw [List.drop_drop, dropWhile_eq_drop, List.drop_drop, argStart, runFrom_takeWhile, nameEnd]

theorem argStart_le : argStart command ≤ command.length := by
  have hp := runFrom_length_le (fun _ c => c == 0x20) command 0
  have hq := runFrom_length_le (fun _ => nameByte) (command.drop (nameStart command))
    (nameStart command)
  have hr := runFrom_length_le (fun _ c => c == 0x20) (command.drop (nameEnd command))
    (nameEnd command)
  rw [runFrom_nameStart] at hq
  rw [List.length_drop] at hq hr
  unfold argStart
  unfold nameEnd at hr ⊢
  unfold nameStart at *
  omega

theorem argToken_eq : argToken command =
    ((command.drop (argStart command)).takeWhile fun c => !isEnd c).take (128 - argStart command) :=
  runFrom_bounded ..

theorem parse_eq : parse command =
    if isEnd (command.headD 0) then ⟨[], [], false⟩
    else if isEnd ((command.drop (nameStart command)).headD 0) then ⟨[], [], false⟩
    else if 32 < (nameToken command).length then ⟨(nameToken command).zipIdx, [], false⟩
    else ⟨(nameToken command ++ [0]).zipIdx, (argToken command ++ [0]).zipIdx, true⟩ := by
  have hstart : 0 + (runFrom (fun _ c => c == 0x20) command 0).length = nameStart command :=
    Nat.zero_add _
  have hdrop : (command.drop (nameStart command)).drop (nameToken command).length =
      command.drop (nameEnd command) := List.drop_drop
  have hrest := drop_argStart command
  rw [hdrop] at hrest
  simp only [parse, skipSpaces_eq, copyLoop_eq, hstart, drop_nameStart, runFrom_nameStart, hdrop,
    hrest, gt_iff_lt, Nat.zero_add, List.zipIdx_append]
  rfl

theorem parseCommand_eq : parseCommand command =
    if isEnd (command.headD 0) then none
    else if isEnd ((command.drop (nameStart command)).headD 0) then none
    else if 32 < (nameToken command).length then none
    else some (nameToken command, argToken command) := by
  have hindex : command.length - (command.drop (argStart command)).length = argStart command := by
    have := argStart_le command
    rw [List.length_drop]
    omega
  have hname : (command.drop (nameStart command)).takeWhile (fun c => !isEnd c && c != 0x20) =
      nameToken command := by
    rw [nameToken, drop_nameStart]
    rfl
  simp only [parseCommand, drop_nameStart command, hname, drop_argStart, hindex, ← argToken_eq,
    gt_iff_lt]

theorem tokens : Tokens command (nameToken command) (argToken command) := by
  obtain ⟨hspaces, -⟩ := runFrom_maxRun (fun _ c => c == 0x20) (fun _ => rfl) command 0
  obtain ⟨hname, hnameSeg⟩ := runFrom_maxRun (fun _ => nameByte) (fun _ => rfl) command
    (nameStart command)
  obtain ⟨hgap, -⟩ := runFrom_maxRun (fun _ c => c == 0x20) (fun _ => rfl) command (nameEnd command)
  obtain ⟨harg, hargSeg⟩ := runFrom_maxRun (fun i c => !isEnd c && decide (i < 128))
    (fun _ => rfl) command (argStart command)
  rw [Nat.zero_add, List.drop_zero] at hspaces
  rw [runFrom_nameStart] at hname hnameSeg
  exact ⟨_, _, _, _, hspaces, hname, hnameSeg, hgap, harg, hargSeg⟩

variable {command}

theorem takeWhile_name_of_end {s : List UInt8} (h : isEnd (s.headD 0) = true) :
    s.takeWhile nameByte = [] := by
  cases s with
  | nil => rfl
  | cons c s =>
    have hc : isEnd c = true := h
    rw [List.takeWhile_cons, nameByte, hc]
    rfl

theorem nameToken_of_end (h : isEnd (command.headD 0) = true) : nameToken command = [] := by
  have hs : command.dropWhile (· == 0x20) = command := by
    cases command with
    | nil => rfl
    | cons c s =>
      have hc : c ≠ 0x20 := by
        intro he
        subst he
        cases h
      rw [List.dropWhile_cons, if_neg (by simpa using hc)]
  rw [nameToken, hs, takeWhile_name_of_end h]

theorem nameToken_ne_nil (h : ¬ isEnd ((command.drop (nameStart command)).headD 0) = true) :
    nameToken command ≠ [] := by
  rw [← drop_nameStart] at h
  unfold nameToken
  cases hs : command.dropWhile (· == 0x20) with
  | nil =>
    rw [hs] at h
    exact absurd rfl h
  | cons c s =>
    rw [hs] at h
    have hspace : (c == 0x20) = false := by
      have := List.head_dropWhile_not (· == 0x20) (show command.dropWhile (· == 0x20) ≠ [] by simp [hs])
      simpa [hs] using this
    have hend : isEnd c = false := by simpa using h
    rw [List.takeWhile_cons, nameByte, hend, bne, hspace]
    exact List.cons_ne_nil _ _

theorem zero_notMem_name : 0 ∉ nameToken command := fun h => by
  cases List.mem_takeWhile_imp h

theorem zero_notMem_arg : 0 ∉ argToken command := by
  rw [argToken_eq]
  intro h
  cases List.mem_takeWhile_imp (List.mem_of_mem_take h)

/-- The argument begins behind a name, so below index 128 it has at most 127 bytes. -/
theorem argToken_length (h : nameToken command ≠ []) : (argToken command).length ≤ 127 := by
  have := List.length_pos_iff.mpr h
  rw [argToken_eq, List.length_take, argStart, nameEnd]
  omega

/-- The parsing refuses a blank command without a store, refuses a name of more than 32
bytes once it has stored it, and otherwise leaves the two tokens, terminated. -/
theorem parse_cases (command : List UInt8) :
    (parse command = ⟨[], [], false⟩ ∧ parseCommand command = none ∧ nameToken command = []) ∨
    (32 < (nameToken command).length ∧ parse command = ⟨(nameToken command).zipIdx, [], false⟩ ∧
      parseCommand command = none) ∨
    ((nameToken command).length ≤ 32 ∧ nameToken command ≠ [] ∧
      parse command = ⟨(nameToken command ++ [0]).zipIdx, (argToken command ++ [0]).zipIdx, true⟩ ∧
      parseCommand command = some (nameToken command, argToken command)) := by
  rw [parse_eq, parseCommand_eq]
  split_ifs with hfirst hblank hlong
  · exact .inl ⟨rfl, rfl, nameToken_of_end hfirst⟩
  · refine .inl ⟨rfl, rfl, ?_⟩
    rw [nameToken, drop_nameStart, takeWhile_name_of_end hblank]
  · exact .inr (.inl ⟨hlong, rfl, rfl⟩)
  · exact .inr (.inr ⟨by omega, nameToken_ne_nil hblank, rfl, rfl⟩)

theorem argBuff_get (garbage : Memory) (j : Nat) (hj : j ≤ (argToken command).length) :
    stores garbage ((argToken command ++ [0]).zipIdx) (0 + j) = (argToken command ++ [0]).getD j 0 := by
  rw [stores_zipIdx]
  apply overlay_get
  rw [List.length_append, List.length_singleton]
  omega

/-- What the loops leave in the buffers, whatever these held: the strings `parseCommand`
gives, and in the block the argument over its old bytes. -/
theorem parse_result (command : List UInt8) (filename arg block : Memory) :
    (parseCommand command = if (parse command).accepted then
      some (stringAt (stores filename (parse command).filenameBuf) 128,
        stringAt (stores arg (parse command).argBuff) 128) else none) ∧
    ((parse command).accepted = true → ∀ fuel, 128 ≤ fuel →
      stores block (pcbLoop (stores arg (parse command).argBuff) fuel 0) =
        overlay block 0 (argToken command ++ [0])) := by
  rcases parse_cases command with ⟨hp, hc, -⟩ | ⟨-, hp, hc⟩ | ⟨hlen, hne, hp, hc⟩
  · rw [hp, hc]
    exact ⟨rfl, nofun⟩
  · rw [hp, hc]
    exact ⟨rfl, nofun⟩
  · have harg := argToken_length hne
    rw [hp, hc]
    refine ⟨?_, fun _ fuel hfuel => ?_⟩
    · rw [if_pos rfl, stores_zipIdx, stores_zipIdx, stringAt_overlay zero_notMem_name (by omega),
        stringAt_overlay zero_notMem_arg (by omega)]
    · rw [pcbLoop_eq (argBuff_get arg) zero_notMem_arg, List.take_of_length_le, stores_zipIdx]
      simp only [List.length_zipIdx, List.length_append, List.length_singleton]
      omega

end

/-- Every store of the parsing, and of the copy into the block, is in bounds. -/
structure StoresInside (command : List UInt8) : Prop where
  filename : ∀ w ∈ (parse command).filenameBuf, w.2 ≤ 127
  arg : ∀ w ∈ (parse command).argBuff, w.2 ≤ 127
  block : (parse command).accepted = true → ∀ garbage fuel,
    ∀ w ∈ pcbLoop (stores garbage (parse command).argBuff) fuel 0, w.2 ≤ 127

/-- A longer name is stored over the end of its buffer, before its length is tested. -/
theorem storesInside_length {command : List UInt8} (h : StoresInside command) :
    (nameToken command).length ≤ 128 := by
  rcases parse_cases command with ⟨-, -, hname⟩ | ⟨hlong, hp, -⟩ | ⟨hlen, -⟩
  · rw [hname]
    exact Nat.zero_le _
  · by_contra hmore
    -- the store of byte 128
    have hmem : ((nameToken command)[128], 128) ∈ (parse command).filenameBuf := by
      rw [hp]
      exact List.mk_mem_zipIdx_iff_getElem?.mpr (by simp)
    have hin : 128 ≤ 127 := h.filename _ hmem
    omega
  · omega

theorem storesInside_of_length {command : List UInt8} (h : (nameToken command).length ≤ 128) :
    StoresInside command := by
  rcases parse_cases command with ⟨hp, -, -⟩ | ⟨-, hp, -⟩ | ⟨hlen, hne, hp, -⟩
  · exact ⟨by simp [hp], by simp [hp], by simp [hp]⟩
  · refine ⟨fun w hw => ?_, by simp [hp], by simp [hp]⟩
    rw [hp] at hw
    have := List.snd_lt_of_mem_zipIdx hw
    omega
  · have harg := argToken_length hne
    refine ⟨fun w hw => ?_, fun w hw => ?_, fun _ garbage fuel w hw => ?_⟩
    · rw [hp] at hw
      have := List.snd_lt_of_mem_zipIdx hw
      rw [List.length_append, List.length_singleton] at this
      omega
    · rw [hp] at hw
      have := List.snd_lt_of_mem_zipIdx hw
      rw [List.length_append, List.length_singleton] at this
      omega
    · rw [hp, pcbLoop_eq (argBuff_get garbage) zero_notMem_arg] at hw
      have := List.snd_lt_of_mem_zipIdx (List.mem_of_mem_take hw)
      rw [List.length_append, List.length_singleton] at this
      omega

/-- The stores are in bounds exactly if the name has at most 128 bytes: it is stored before
its length is tested. -/
theorem parse_stores_iff (command : List UInt8) :
    StoresInside command ↔ (nameToken command).length ≤ 128 := by
  constructor
  · exact storesInside_length
  · exact storesInside_of_length

/-- A command of 129 letters: the last of them is stored behind the buffer. -/
theorem parse_stores_outside :
    (0x61, 128) ∈ (parse (List.replicate 129 0x61)).filenameBuf ∧
      ¬ StoresInside (List.replicate 129 0x61) := by
  have h : (0x61, 128) ∈ (parse (List.replicate 129 0x61)).filenameBuf := by decide +kernel
  exact ⟨h, fun hin => absurd (hin.filename _ h) (by decide)⟩

end Flipit

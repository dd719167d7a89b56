import Flipit.Bytes
import Flipit.Chains
import Flipit.Machine
import Mathlib.Data.Fintype.Card
import Mathlib.Data.List.FinRange

/- The blinking characters of `fish`: the list of blink structures and its four requests and
   the tasklet that runs it, as blink.S has them, and the allocator under the list.

   An entry of `blink_array` is a `Blink`; a pointer is null or to an entry, the only ones that
   `mp1_malloc` gives out. `video` is the memory from `vmem_base_addr` on. Every loop along the
   list has a bound on its turns, and no result if it runs out.

   `Lights` is what the list is for: the structures in order and the screen. On it the requests
   are operations on a list of fields, and `blinks_refine` shows that the code's list follows them
   as long as nothing is added at location 0, the mark of a free entry; `added_at_zero` says
   what happens otherwise. -/
namespace Blinks
open Bytes Chains Machine

/-- An entry of `blink_array`. -/
abbrev Cell := Fin 2000

/-- The fields of `mp1_blink_struct` but its link. -/
structure Fields where
  location : UInt16
  onChar : UInt8
  offChar : UInt8
  onLength : UInt16
  offLength : UInt16
  countdown : UInt16
  status : UInt16
  deriving DecidableEq

/-- `mp1_blink_struct`. -/
structure Blink extends Fields where
  next : Option Cell
  deriving DecidableEq

def Blink.zero : Blink := ⟨⟨0, 0, 0, 0, 0, 0, 0⟩, none⟩

structure Board where
  /-- `mp1_list_head`. -/
  listHead : Option Cell
  /-- `blink_array`. -/
  array : Cell → Blink
  video : Memory

inductive Request
  | add (user : Blink)
  | remove (arg : UInt32)
  | find (user : Blink)
  | sync (arg : UInt32)
  /-- `mp1_rtc_tasklet`. -/
  | tasklet

/-- The returned value, and what a `find` leaves in the caller's structure. -/
abbrev Reply (α : Type) := Int × Option α

/-- The first location of a `sync`. -/
def highWord (arg : UInt32) : UInt16 := (arg >>> 16).toUInt16

/-- The second location of a `sync`. -/
def lowWord (arg : UInt32) : UInt16 := (arg &&& 0xFFFF).toUInt16

namespace Board

def start (video : Memory) : Board := ⟨none, fun _ => Blink.zero, video⟩

def next (s : Board) (i : Cell) : Option Cell := (s.array i).next

def store (s : Board) (i : Cell) (b : Blink) : Board := { s with array := Function.update s.array i b }

def mp1Poke (s : Board) (eax : Nat) (cl : UInt8) : Board := { s with video := Function.update s.video eax cl }

/-- The first entry at location 0. -/
def mp1Malloc (s : Board) : Option Cell := (List.finRange 2000).find? fun i => (s.array i).location == 0

def mp1Free (s : Board) (i : Cell) : Board := s.store i Blink.zero

def mp1FindHelper (n : Nat) (s : Board) (ax : UInt16) : Option (Option Cell) :=
  walk s.next (fun i => (s.array i).location == ax) n s.listHead

/-- A pointer goes to a place: the head of the list, or an entry's link. -/
def put (s : Board) (edx : Option Cell) (v : Option Cell) : Board :=
  match edx with
  | none => { s with listHead := v }
  | some b => s.store b { s.array b with next := v }

def mp1IoctlAdd (s : Board) (user : Blink) : Int × Board :=
  if 2000 ≤ user.location then (-1, s)
  else
    let temp : Blink := { user with status := 1, countdown := user.onLength }
    match s.mp1Malloc with
    | none => (-1, s)
    | some p =>
      let t := { s.store p { temp with next := s.listHead } with listHead := some p }
      (0, t.mp1Poke (2 * temp.location.toNat) temp.onChar)

def mp1IoctlRemove (n : Nat) (s : Board) (arg : UInt32) : Option (Int × Board) :=
  (mp1FindHelper n s arg.toUInt16).bind fun
    | none => some (-1, s)
    | some a => (holder s.listHead s.next a n none).map fun edx => (0, (s.put edx (s.next a)).mp1Free a)

def mp1IoctlFind (n : Nat) (s : Board) (user : Blink) : Option (Reply Blink) :=
  (mp1FindHelper n s user.location).map fun
    | none => (-1, none)
    | some i => (0, some (s.array i))

/-- What `sync` takes from the first structure. -/
def synced (src dst : Fields) : Fields :=
  { dst with onLength := src.onLength, offLength := src.offLength, countdown := src.countdown, status := src.status }

/-- `testb $1` and `cmovl`: SF is the highest bit of the conjunction, and OF is clear. -/
def lessAfterTest (b : UInt8) : Bool := 0x80 ≤ (1 &&& b)

def syncChar (b : Fields) : UInt8 := if lessAfterTest b.status.toUInt8 then b.onChar else b.offChar

def mp1IoctlSync (n : Nat) (s : Board) (arg : UInt32) : Option (Int × Board) :=
  (mp1FindHelper n s (highWord arg)).bind fun
    | none => some (-1, s)
    | some esi => (mp1FindHelper n s (lowWord arg)).map fun
      | none => (-1, s)
      | some edi =>
        let b := synced (s.array esi).toFields (s.array edi).toFields
        (0, (s.store edi ⟨b, s.next edi⟩).mp1Poke (2 * b.location.toNat) (syncChar b))

/-- The structure after one pass of the tasklet, and the character it puts out, if any. -/
def turn (b : Fields) : Fields × Option UInt8 :=
  let countdown := b.countdown - 1
  -- `jg`, a signed comparison
  if 0 < countdown.toBitVec.toInt then ({ b with countdown := countdown }, none)
  else if b.status &&& 1 ≠ 0 then
    ({ b with countdown := b.offLength, status := b.status ^^^ 1 }, some b.offChar)
  else ({ b with countdown := b.onLength, status := b.status ^^^ 1 }, some b.onChar)

def pokeOption (s : Board) (eax : Nat) : Option UInt8 → Board
  | none => s
  | some cl => s.mp1Poke eax cl

/-- The tasklet's loop from `ebx` on. -/
def taskletLoop : Nat → Board → Option Cell → Option Board
  | 0, _, _ => none
  | _ + 1, s, none => some s
  | n + 1, s, some ebx =>
    let r := turn (s.array ebx).toFields
    let t := (s.store ebx ⟨r.1, s.next ebx⟩).pokeOption (2 * r.1.location.toNat) r.2
    taskletLoop n t (t.next ebx)

def mp1RtcTasklet (n : Nat) (s : Board) : Option Board := taskletLoop n s s.listHead

/-- One request, with at most `n` turns of each of its loops. -/
def step (n : Nat) (s : Board) : Request → Option (Reply Blink × Board)
  | .add user =>
    let r := s.mp1IoctlAdd user
    some ((r.1, none), r.2)
  | .remove arg => (mp1IoctlRemove n s arg).map fun r => ((r.1, none), r.2)
  | .find user => (mp1IoctlFind n s user).map fun r => (r, s)
  | .sync arg => (mp1IoctlSync n s arg).map fun r => ((r.1, none), r.2)
  | .tasklet => (mp1RtcTasklet n s).map fun t => ((0, none), t)

end Board

/-! ## What the list is for -/

/-- The structures of the list, the newest first, and the screen. -/
abbrev Lights := List Fields × Memory

namespace Lights

def isAt (loc : UInt16) (b : Fields) : Bool := b.location == loc

/-- The character of a pass of the tasklet, on the screen. -/
def blink (video : Memory) (b : Fields) : Memory :=
  match (Board.turn b).2 with
  | none => video
  | some c => Function.update video (2 * b.location.toNat) c

def step (t : Lights) : Request → Reply Fields × Lights
  | .add u =>
    if 2000 ≤ u.location ∨ t.1.length = 2000 then ((-1, none), t)
    else ((0, none), ({ u.toFields with status := 1, countdown := u.onLength } :: t.1,
      Function.update t.2 (2 * u.location.toNat) u.onChar))
  | .remove arg =>
    match t.1.find? (isAt arg.toUInt16) with
    | none => ((-1, none), t)
    | some _ => ((0, none), (t.1.eraseP (isAt arg.toUInt16), t.2))
  | .find u =>
    match t.1.find? (isAt u.location) with
    | none => ((-1, none), t)
    | some b => ((0, some b), t)
  | .sync arg =>
    match t.1.find? (isAt (highWord arg)), t.1.find? (isAt (lowWord arg)) with
    | some src, some dst =>
      let b := Board.synced src dst
      ((0, none), (t.1.set (t.1.findIdx (isAt (lowWord arg))) b,
        Function.update t.2 (2 * b.location.toNat) b.offChar))
    | _, _ => ((-1, none), t)
  | .tasklet => ((0, none), (t.1.map fun b => (Board.turn b).1, t.1.foldl blink t.2))

end Lights

/-- The structures in the entries `cells`, linked in this order; the other entries are free. -/
structure Lists (s : Board) (cells : List Cell) (t : Lights) : Prop where
  chain : Chain s.next s.listHead cells
  nodup : cells.Nodup
  fields : cells.map (fun i => (s.array i).toFields) = t.1
  used : ∀ i ∈ cells, (s.array i).location ≠ 0
  free : ∀ i, i ∉ cells → (s.array i).location = 0
  video : s.video = t.2

/-- What a request may not do: add at location 0. -/
def Request.Placed : Request → Prop
  | .add u => u.location ≠ 0
  | _ => True

namespace Board

variable {s s' : Board} {cells l r : List Cell} {t : Lights} {i p : Cell} {b : Blink} {n : Nat}

@[simp] theorem store_array : (s.store i b).array = Function.update s.array i b := rfl

@[simp] theorem store_listHead : (s.store i b).listHead = s.listHead := rfl

@[simp] theorem store_video : (s.store i b).video = s.video := rfl

@[simp] theorem mp1Poke_array {a : Nat} {c : UInt8} : (s.mp1Poke a c).array = s.array := rfl

@[simp] theorem mp1Poke_listHead {a : Nat} {c : UInt8} : (s.mp1Poke a c).listHead = s.listHead := rfl

@[simp] theorem mp1Poke_video {a : Nat} {c : UInt8} : (s.mp1Poke a c).video = Function.update s.video a c := rfl

@[simp] theorem mp1Poke_next {a : Nat} {c : UInt8} : (s.mp1Poke a c).next = s.next := rfl

theorem store_next : (s.store i b).next = Function.update s.next i b.next := by
  funext j
  simp only [next, store_array, Function.update_apply]
  split <;> rfl

@[simp] theorem store_next_self (b : Fields) : (s.store i ⟨b, s.next i⟩).next = s.next := by
  rw [store_next, Function.update_eq_self]

theorem store_fields : (fun j => ((s.store i b).array j).toFields) =
    Function.update (fun j => (s.array j).toFields) i b.toFields := by
  funext j
  simp only [store_array, Function.update_apply]
  split <;> rfl

section
variable {q v : Option Cell}

theorem put_fields : ((s.put q v).array i).toFields = (s.array i).toFields := by
  cases q with
  | none => rfl
  | some b => exact (congrFun store_fields i).trans (by rw [Function.update_eq_self])

theorem put_next {b : Cell} : (s.put q v).next b = if q = some b then v else s.next b := by
  cases q with
  | none => simp [put, next]
  | some c =>
    rw [put, store_next, Function.update_apply]
    simp [eq_comm]

theorem put_listHead : (s.put q v).listHead = if q = none then v else s.listHead := by
  cases q <;> simp [put]

theorem put_video : (s.put q v).video = s.video := by
  cases q <;> simp [put]

end

theorem syncChar_eq (b : Fields) : syncChar b = b.offChar := by
  have hless : lessAfterTest b.status.toUInt8 = false := by
    have hle : 1 &&& b.status.toUInt8.toNat ≤ 1 := Nat.and_le_left
    simp only [lessAfterTest, UInt8.le_iff_toNat_le, UInt8.toNat_and, decide_eq_false_iff_not]
    exact fun hlow => absurd (hlow.trans hle) (by decide)
  simp [syncChar, hless]

end Board

namespace Lists

variable {s s' : Board} {cells : List Cell} {t : Lights} {i p : Cell} {n : Nat}

theorem start (video : Memory) : Lists (Board.start video) [] ([], video) where
  chain := by simp [Board.start]
  nodup := List.nodup_nil
  fields := by simp
  used := by simp
  free := by simp [Board.start, Blink.zero]
  video := rfl

theorem length_le (h : Lists s cells t) : cells.length ≤ 2000 := by
  simpa using h.nodup.length_le_card

theorem length_eq (h : Lists s cells t) : t.1.length = cells.length := by
  rw [← h.fields, List.length_map]

theorem mem_iff (h : Lists s cells t) : i ∈ cells ↔ (s.array i).location ≠ 0 := by
  constructor
  · exact h.used i
  · intro hi
    by_contra hmem
    exact hi (h.free i hmem)

/-! ### Allocation -/

theorem malloc_fresh (h : Lists s cells t) (hp : s.mp1Malloc = some p) : p ∉ cells := by
  have hzero : (s.array p).location = 0 := by simpa using List.find?_some hp
  rw [h.mem_iff]
  exact not_not_intro hzero

theorem malloc_full (h : Lists s cells t) : s.mp1Malloc = none ↔ cells.length = 2000 := by
  constructor
  · intro hnone
    have hall : List.finRange 2000 ⊆ cells := by
      intro i hi
      rw [h.mem_iff]
      simpa using List.find?_eq_none.mp hnone i hi
    have hle := ((List.nodup_finRange 2000).subperm hall).length_le
    rw [List.length_finRange] at hle
    exact le_antisymm h.length_le hle
  · intro hfull
    cases hp : s.mp1Malloc with
    | none => rfl
    | some p =>
      have hnodup := List.nodup_cons.mpr ⟨h.malloc_fresh hp, h.nodup⟩
      have hle := hnodup.length_le_card
      rw [List.length_cons, hfull, Fintype.card_fin] at hle
      exact absurd hle (by decide)

/-! ### Search -/

theorem helper (h : Lists s cells t) (ax : UInt16) (hn : 2000 < n) :
    s.mp1FindHelper n ax = some (cells.find? fun i => Lights.isAt ax (s.array i).toFields) :=
  h.chain.walk _ (Nat.lt_of_le_of_lt h.length_le hn)

theorem find_eq (h : Lists s cells t) (ax : UInt16) :
    t.1.find? (Lights.isAt ax) =
      (cells.find? fun i => Lights.isAt ax (s.array i).toFields).map fun i => (s.array i).toFields := by
  rw [← h.fields, List.find?_map]
  rfl

/-! ### Adding -/

theorem push (h : Lists s cells t) (hp : p ∉ cells) {b : Fields} (hb : b.location ≠ 0) {video : Memory} :
    Lists { s.store p ⟨b, s.listHead⟩ with listHead := some p, video := video } (p :: cells) (b :: t.1, video) where
  chain := by
    have hnext : Board.next { s.store p ⟨b, s.listHead⟩ with listHead := some p, video := video } =
        Function.update s.next p s.listHead := Board.store_next
    rw [hnext]
    exact h.chain.push hp
  nodup := List.nodup_cons.mpr ⟨hp, h.nodup⟩
  fields := by
    have hrest : cells.map (fun i => (Function.update s.array p ⟨b, s.listHead⟩ i).toFields) = t.1 := by
      rw [← h.fields]
      apply List.map_congr_left
      intro i hi
      have hne : i ≠ p := fun hip => hp (by rwa [← hip])
      rw [Function.update_of_ne hne]
    simp [hrest]
  used := by
    intro i hi
    by_cases hip : i = p
    · simpa [hip] using hb
    · simpa [hip] using h.used i (by simpa [hip] using hi)
  free := by
    intro i hi
    simp only [List.mem_cons, not_or] at hi
    simpa [hi.1] using h.free i hi.2
  video := rfl

theorem add (h : Lists s cells t) (user : Blink) (hu : user.location ≠ 0) :
    (s.mp1IoctlAdd user).1 = (t.step (.add user)).1.1 ∧
      ∃ cells', Lists (s.mp1IoctlAdd user).2 cells' (t.step (.add user)).2 := by
  by_cases hlow : 2000 ≤ user.location
  · simpa [Board.mp1IoctlAdd, Lights.step, hlow] using ⟨cells, h⟩
  cases hp : s.mp1Malloc with
  | none =>
    have hfull : t.1.length = 2000 := h.length_eq.trans (h.malloc_full.mp hp)
    simpa [Board.mp1IoctlAdd, Lights.step, hlow, hp, hfull] using ⟨cells, h⟩
  | some p =>
    have hroom : t.1.length ≠ 2000 := by
      rw [h.length_eq, ne_eq, ← h.malloc_full, hp]
      simp
    simp only [Board.mp1IoctlAdd, Lights.step, hlow, hp, hroom, if_false, or_self, true_and]
    refine ⟨p :: cells, ?_⟩
    rw [← h.video]
    exact h.push (h.malloc_fresh hp) (b := { user.toFields with status := 1, countdown := user.onLength }) hu

/-! ### Removing -/

theorem unlinked {a : Cell} {l r : List Cell} (h : Lists s (l ++ a :: r) t) :
    Lists ((s.put l.getLast? (s.next a)).mp1Free a) (l ++ r) ((l ++ r).map fun i => (s.array i).toFields, t.2) := by
  have hnodup := h.nodup
  have ha : a ∉ l ++ r := by
    simp only [List.nodup_append, List.nodup_cons, List.mem_cons] at hnodup
    simp only [List.mem_append, not_or]
    exact ⟨fun hl => hnodup.2.2 a hl a (.inl rfl) rfl, hnodup.2.1.1⟩
  have hfields : ∀ i, i ≠ a → (((s.put l.getLast? (s.next a)).mp1Free a).array i).toFields = (s.array i).toFields := by
    intro i hi
    rw [Board.mp1Free, Board.store_array, Function.update_of_ne hi, Board.put_fields]
  have hmem : ∀ i, i ∈ l ++ r → i ≠ a := by
    intro i hi hia
    exact ha (by rwa [← hia])
  exact {
    chain := by
      apply h.chain.unlink hnodup
      · intro b hb
        rw [Board.mp1Free, Board.store_next, Function.update_of_ne (hmem b hb), Board.put_next]
      · rw [Board.mp1Free, Board.store_listHead, Board.put_listHead]
        simp
    nodup := by
      refine hnodup.sublist ?_
      simp
    fields := by
      apply List.map_congr_left
      intro i hi
      exact hfields i (hmem i hi)
    used := by
      intro i hi
      rw [hfields i (hmem i hi)]
      apply h.used i
      simp only [List.mem_append, List.mem_cons] at hi ⊢
      tauto
    free := by
      intro i hi
      by_cases hia : i = a
      · simp [hia, Board.mp1Free, Blink.zero]
      · rw [hfields i hia]
        apply h.free i
        simp only [List.mem_append, List.mem_cons] at hi ⊢
        tauto
    video := by
      rw [Board.mp1Free, Board.store_video, Board.put_video, h.video] }

theorem remove (h : Lists s cells t) (arg : UInt32) (hn : 2000 < n) :
    ∃ r cells', s.mp1IoctlRemove n arg = some r ∧ r.1 = (t.step (.remove arg)).1.1 ∧
      Lists r.2 cells' (t.step (.remove arg)).2 := by
  have hhelper := h.helper arg.toUInt16 hn
  have hfind := h.find_eq arg.toUInt16
  cases hc : cells.find? fun i => Lights.isAt arg.toUInt16 (s.array i).toFields with
  | none =>
    rw [hc, Option.map_none] at hfind
    refine ⟨(-1, s), cells, ?_, ?_, ?_⟩
    · simp [Board.mp1IoctlRemove, hhelper, hc]
    · simp [Lights.step, hfind]
    · simpa [Lights.step, hfind] using h
  | some a =>
    rw [hc, Option.map_some] at hfind
    obtain ⟨hhit, l, r, rfl, hmiss⟩ := List.find?_eq_some_iff_append.mp hc
    have hnodup := h.nodup
    have ha : a ∉ l ∧ a ∉ r := by
      simp only [List.nodup_append, List.nodup_cons, List.mem_cons] at hnodup
      exact ⟨fun hl => hnodup.2.2 a hl a (.inl rfl) rfl, hnodup.2.1.1⟩
    have hlength : l.length < n := by
      have hle := h.length_le
      simp only [List.length_append] at hle
      omega
    have hholder : Chains.holder s.listHead s.next a n none = some l.getLast? := h.chain.holder ha.1 hlength
    refine ⟨(0, (s.put l.getLast? (s.next a)).mp1Free a), l ++ r, ?_, ?_, ?_⟩
    · rw [Board.mp1IoctlRemove, hhelper, hc, Option.bind_some]
      dsimp only
      rw [hholder, Option.map_some]
    · simp [Lights.step, hfind]
    · have herase : t.1.eraseP (Lights.isAt arg.toUInt16) = (l ++ r).map fun i => (s.array i).toFields := by
        rw [← h.fields, List.eraseP_map, List.eraseP_append_right _ (by simpa using hmiss)]
        simp [hhit]
      simp only [Lights.step, hfind, herase]
      exact h.unlinked

/-! ### Changes in place -/

/-- Other fields in the entries of the list, at the same locations, and another screen. -/
theorem changed {s' : Board} {f : Cell → Fields} (h : Lists s cells t) (hhead : s'.listHead = s.listHead)
    (hnext : s'.next = s.next) (hf : ∀ i ∈ cells, (s'.array i).toFields = f i ∧ (f i).location = (s.array i).location)
    (hothers : ∀ i, i ∉ cells → s'.array i = s.array i) : Lists s' cells (cells.map f, s'.video) where
  chain := by
    rw [hhead, hnext]
    exact h.chain
  nodup := h.nodup
  fields := List.map_congr_left fun i hi => (hf i hi).1
  used := by
    intro i hi
    rw [(hf i hi).1, (hf i hi).2]
    exact h.used i hi
  free := by
    intro i hi
    rw [hothers i hi]
    exact h.free i hi
  video := rfl

theorem sync (h : Lists s cells t) (arg : UInt32) (hn : 2000 < n) :
    ∃ r, s.mp1IoctlSync n arg = some r ∧ r.1 = (t.step (.sync arg)).1.1 ∧
      Lists r.2 cells (t.step (.sync arg)).2 := by
  have hsrc := h.helper (highWord arg) hn
  have hdst := h.helper (lowWord arg) hn
  have hfind := h.find_eq (highWord arg)
  have hfind' := h.find_eq (lowWord arg)
  cases hi : cells.find? fun i => Lights.isAt (highWord arg) (s.array i).toFields with
  | none =>
    rw [hi, Option.map_none] at hfind
    refine ⟨(-1, s), by simp [Board.mp1IoctlSync, hsrc, hi], by simp [Lights.step, hfind], ?_⟩
    simpa [Lights.step, hfind] using h
  | some i =>
    rw [hi, Option.map_some] at hfind
    cases hj : cells.find? fun i => Lights.isAt (lowWord arg) (s.array i).toFields with
    | none =>
      rw [hj, Option.map_none] at hfind'
      refine ⟨(-1, s), by simp [Board.mp1IoctlSync, hsrc, hi, hdst, hj], by simp [Lights.step, hfind, hfind'], ?_⟩
      simpa [Lights.step, hfind, hfind'] using h
    | some j =>
      rw [hj, Option.map_some] at hfind'
      obtain ⟨b, hb⟩ : ∃ b, b = Board.synced (s.array i).toFields (s.array j).toFields := ⟨_, rfl⟩
      have hset := map_update_find h.nodup (Lights.isAt (lowWord arg)) (fun i => (s.array i).toFields) b hj
      have hstep : t.step (.sync arg) = ((0, none), (t.1.set (t.1.findIdx (Lights.isAt (lowWord arg))) b,
          Function.update t.2 (2 * b.location.toNat) b.offChar)) := by
        simp [Lights.step, hfind, hfind', hb]
      have hcall : s.mp1IoctlSync n arg =
          some (0, (s.store j ⟨b, s.next j⟩).mp1Poke (2 * b.location.toNat) b.offChar) := by
        simp [Board.mp1IoctlSync, hsrc, hi, hdst, hj, Board.syncChar_eq, hb]
      refine ⟨_, hcall, by rw [hstep], ?_⟩
      rw [hstep, ← h.fields, ← hset, ← h.video]
      refine h.changed rfl ?_ (fun k hk => ⟨?_, ?_⟩) fun k hk => ?_
      · exact Board.store_next_self b
      · exact congrFun Board.store_fields k
      · rw [Function.update_apply]
        split
        · rename_i hkj
          rw [hkj, hb]
          rfl
        · rfl
      · have hkj : k ≠ j := fun hkj => hk (hkj ▸ List.mem_of_find?_eq_some hj)
        simp [hkj]

/-! ### The tasklet -/

theorem turn_location (b : Fields) : (Board.turn b).1.location = b.location := by
  unfold Board.turn
  dsimp only
  split
  · rfl
  · split <;> rfl

end Lists

namespace Board

variable {s s' : Board} {l : List Cell} {p : Option Cell} {n : Nat}

@[simp] theorem pokeOption_array {a : Nat} {c : Option UInt8} : (s.pokeOption a c).array = s.array := by
  cases c <;> simp [pokeOption]

@[simp] theorem pokeOption_next {a : Nat} {c : Option UInt8} : (s.pokeOption a c).next = s.next := by
  cases c <;> simp [pokeOption]

@[simp] theorem pokeOption_listHead {a : Nat} {c : Option UInt8} : (s.pokeOption a c).listHead = s.listHead := by
  cases c <;> simp [pokeOption]

theorem pokeOption_video (b : Fields) :
    (s.pokeOption (2 * (turn b).1.location.toNat) (turn b).2).video = Lights.blink s.video b := by
  rw [Lists.turn_location, Lights.blink]
  cases (turn b).2 <;> simp [pokeOption]

/-- The tasklet along a chain: each entry has its turn, and no link changes. -/
theorem taskletLoop_chain (h : Chain s.next p l) (hnodup : l.Nodup) (hn : l.length < n) :
    ∃ s', taskletLoop n s p = some s' ∧ s'.listHead = s.listHead ∧ s'.next = s.next ∧
      (∀ i ∈ l, (s'.array i).toFields = (turn (s.array i).toFields).1) ∧ (∀ i, i ∉ l → s'.array i = s.array i) ∧
      s'.video = (l.map fun i => (s.array i).toFields).foldl Lights.blink s.video := by
  induction l generalizing s p n with
  | nil =>
    obtain ⟨n, rfl⟩ := Nat.exists_eq_add_of_lt hn
    refine ⟨s, ?_, rfl, rfl, by simp, by simp, rfl⟩
    rw [chain_nil.mp h, taskletLoop]
  | cons a l ih =>
    obtain ⟨n, rfl⟩ := Nat.exists_eq_add_of_lt hn
    obtain ⟨ha, hnodup⟩ := List.nodup_cons.mp hnodup
    obtain ⟨t, ht⟩ : ∃ t, t = (s.store a ⟨(turn (s.array a).toFields).1, s.next a⟩).pokeOption
      (2 * (turn (s.array a).toFields).1.location.toNat) (turn (s.array a).toFields).2 := ⟨_, rfl⟩
    have hnext : t.next = s.next := by
      rw [ht, pokeOption_next, store_next_self]
    have hfar : ∀ i, i ≠ a → t.array i = s.array i := by
      intro i hi
      rw [ht, pokeOption_array, store_array, Function.update_of_ne hi]
    have hne : ∀ i ∈ l, i ≠ a := by
      intro i hi hia
      exact ha (by rwa [← hia])
    obtain ⟨s', hs', hhead, hnext', hfields, hothers, hvideo⟩ :=
      ih (n := l.length + 1 + n) (hnext ▸ h.2) hnodup (by omega)
    refine ⟨s', ?_, ?_, hnext'.trans hnext, ?_, ?_, ?_⟩
    · rw [h.1, taskletLoop, ← ht, List.length_cons]
      exact hs'
    · rw [hhead, ht, pokeOption_listHead, store_listHead]
    · intro i hi
      by_cases hia : i = a
      · rw [hia, hothers a ha, ht]
        simp
      · rw [hfields i (by simpa [hia] using hi), hfar i hia]
    · intro i hi
      simp only [List.mem_cons, not_or] at hi
      rw [hothers i hi.2, hfar i hi.1]
    · have hrest : l.map (fun i => (t.array i).toFields) = l.map fun i => (s.array i).toFields := by
        apply List.map_congr_left
        intro i hi
        rw [hfar i (hne i hi)]
      rw [hvideo, hrest, List.map_cons, List.foldl_cons, ht, pokeOption_video, store_video]

end Board

namespace Lists

variable {s s' : Board} {cells : List Cell} {t : Lights} {n : Nat}

theorem tasklet (h : Lists s cells t) (hn : 2000 < n) :
    ∃ s', s.mp1RtcTasklet n = some s' ∧ Lists s' cells (t.step .tasklet).2 := by
  obtain ⟨s', hs', hhead, hnext, hfields, hothers, hvideo⟩ :=
    Board.taskletLoop_chain h.chain h.nodup (Nat.lt_of_le_of_lt h.length_le hn)
  refine ⟨s', hs', ?_⟩
  have hlists := h.changed hhead hnext (fun i hi => ⟨hfields i hi, turn_location _⟩) hothers
  rw [h.fields, h.video] at hvideo
  rw [hvideo] at hlists
  simpa [Lights.step, ← h.fields, Function.comp_def] using hlists

theorem step (h : Lists s cells t) (r : Request) (hr : r.Placed) (hn : 2000 < n) :
    ∃ o s' cells', s.step n r = some (o, s') ∧ (o.1, o.2.map Blink.toFields) = (t.step r).1 ∧
      Lists s' cells' (t.step r).2 := by
  cases r with
  | add user =>
    obtain ⟨hret, cells', hlists⟩ := h.add user hr
    refine ⟨_, _, cells', rfl, ?_, hlists⟩
    rw [Option.map_none, hret, Lights.step]
    split <;> rfl
  | remove arg =>
    obtain ⟨r, cells', hcall, hret, hlists⟩ := h.remove arg hn
    refine ⟨_, _, cells', by rw [Board.step, hcall, Option.map_some], ?_, hlists⟩
    rw [Option.map_none, hret, Lights.step]
    split <;> rfl
  | find user =>
    have hhelper := h.helper user.location hn
    have hfind := h.find_eq user.location
    cases hi : cells.find? fun i => Lights.isAt user.location (s.array i).toFields with
    | none =>
      rw [hi, Option.map_none] at hfind
      refine ⟨(-1, none), s, cells, by simp [Board.step, Board.mp1IoctlFind, hhelper, hi],
        by simp [Lights.step, hfind], ?_⟩
      simpa [Lights.step, hfind] using h
    | some i =>
      rw [hi, Option.map_some] at hfind
      refine ⟨(0, some (s.array i)), s, cells, by simp [Board.step, Board.mp1IoctlFind, hhelper, hi],
        by simp [Lights.step, hfind], ?_⟩
      simpa [Lights.step, hfind] using h
  | sync arg =>
    obtain ⟨r, hcall, hret, hlists⟩ := h.sync arg hn
    refine ⟨_, _, cells, by rw [Board.step, hcall, Option.map_some], ?_, hlists⟩
    rw [Option.map_none, hret, Lights.step]
    split <;> rfl
  | tasklet =>
    obtain ⟨s', hcall, hlists⟩ := h.tasklet hn
    exact ⟨_, _, cells, by rw [Board.step, hcall, Option.map_some], rfl, hlists⟩

end Lists

def Follows (s : Board) (t : Lights) : Prop := ∃ cells, Lists s cells t

theorem Follows.trace {s : Board} {t : Lights} (h : Follows s t) (es : List Request) (hes : ∀ e ∈ es, e.Placed)
    {n : Nat} (hn : 2000 < n) : ∃ o s', trace (Board.step n) s es = some (o, s') ∧
      o.map (fun r => (r.1, r.2.map Blink.toFields)) = outputs Lights.step t es ∧
      Follows s' (es.foldl (fun t e => (t.step e).2) t) := by
  have hstep : ∀ {s t e}, Follows s t → e.Placed → ∃ r, Board.step n s e = some r ∧
      (r.1.1, r.1.2.map Blink.toFields) = (t.step e).1 ∧ Follows r.2 (t.step e).2 := by
    intro s t e h he
    obtain ⟨cells, h⟩ := h
    obtain ⟨o, s', cells', hs, ho, hlists⟩ := h.step e he hn
    exact ⟨(o, s'), hs, ho, cells', hlists⟩
  exact trace_simulation hstep h hes

theorem Follows.start (video : Memory) : Follows (Board.start video) ([], video) := ⟨[], Lists.start video⟩

/-- Whatever is asked of the list, in any order, as long as nothing is added at location 0: every
request ends, every answer is that of the list it is for, and so are the list and the screen. -/
theorem blinks_refine (video : Memory) (es : List Request) (hes : ∀ e ∈ es, e.Placed) {n : Nat} (hn : 2000 < n) :
    ∃ o s, trace (Board.step n) (Board.start video) es = some (o, s) ∧
      o.map (fun r => (r.1, r.2.map Blink.toFields)) = outputs Lights.step ([], video) es ∧
      Follows s (es.foldl (fun t e => (t.step e).2) ([], video)) :=
  (Follows.start video).trace es hes hn

/-- The structure that `main` of fish adds for itself. -/
def fishBlink : Blink := ⟨⟨6 * 80 + 60, 0x49, 0x4D, 7, 6, 0, 0⟩, none⟩

/-- The one of its two frames that it adds for the first place. -/
def frameBlink : Blink := ⟨⟨40, 0x20, 0x2F, 15, 15, 0, 0⟩, none⟩

/-- Its requests, with a pass of the tasklet and a search. -/
def fishRequests : List Request :=
  [.add fishBlink, .add frameBlink, .tasklet, .sync 0x28021C, .remove 0x21C, .find fishBlink]

theorem blinks_refine_fish :
    ∃ o s, trace (Board.step 2001) (Board.start fun _ => 0) fishRequests = some (o, s) ∧
      o.map (fun r => r.1) = [0, 0, 0, 0, 0, -1] ∧
      Follows s (fishRequests.foldl (fun t e => (t.step e).2) ([], fun _ => 0)) := by
  obtain ⟨o, s, hrun, ho, hfollows⟩ := blinks_refine (fun _ => 0) fishRequests
    (by simp [fishRequests, Request.Placed, fishBlink, frameBlink]) (n := 2001) (by decide)
  have hreplies := congrArg (List.map fun r => r.1) ho
  rw [List.map_map] at hreplies
  exact ⟨o, s, hrun, hreplies.trans (by decide +kernel), hfollows⟩

/-! ## Location 0 -/

namespace Board

variable {s : Board} {u u' : Blink} {p : Cell}

theorem mp1IoctlAdd_accepted (h : (s.mp1IoctlAdd u).1 = 0) : ¬2000 ≤ u.location ∧ ∃ p, s.mp1Malloc = some p := by
  unfold mp1IoctlAdd at h
  split at h
  · cases h
  · rename_i hlow
    refine ⟨hlow, ?_⟩
    cases hp : s.mp1Malloc with
    | none => simp [hp] at h
    | some p => exact ⟨p, rfl⟩

theorem mp1IoctlAdd_eq (hu : ¬2000 ≤ u.location) (hp : s.mp1Malloc = some p) :
    (s.mp1IoctlAdd u).1 = 0 ∧ (s.mp1IoctlAdd u).2.listHead = some p ∧
      (s.mp1IoctlAdd u).2.array =
        Function.update s.array p { u with status := 1, countdown := u.onLength, next := s.listHead } := by
  unfold mp1IoctlAdd
  rw [if_neg hu]
  dsimp only
  rw [hp]
  exact ⟨rfl, rfl, rfl⟩

theorem mp1Malloc_again (hu : u.location = 0) (h : (s.mp1IoctlAdd u).1 = 0) (hp : s.mp1Malloc = some p) :
    (s.mp1IoctlAdd u).2.mp1Malloc = some p := by
  obtain ⟨-, -, harray⟩ := mp1IoctlAdd_eq (mp1IoctlAdd_accepted h).1 hp
  have hzero : (s.array p).location = 0 := by simpa using List.find?_some hp
  have htest : (fun i => ((s.mp1IoctlAdd u).2.array i).location == 0) = fun i => (s.array i).location == 0 := by
    funext i
    rw [harray]
    by_cases hi : i = p
    · simp [hi, hu, hzero]
    · simp [hi]
  rw [mp1Malloc, htest]
  exact hp

theorem taskletLoop_forever (h : s.next p = some p) (n : Nat) : taskletLoop n s (some p) = none := by
  induction n generalizing s with
  | zero => rfl
  | succ n ih =>
    have hself : ((s.store p ⟨(turn (s.array p).toFields).1, s.next p⟩).pokeOption
        (2 * (turn (s.array p).toFields).1.location.toNat) (turn (s.array p).toFields).2).next p = some p := by
      rw [pokeOption_next, store_next_self, h]
    rw [taskletLoop, hself]
    exact ih hself

end Board

/-- Once a structure has been added at location 0, the next one that is added gets the same entry
and a link to itself: the tasklet never ends again, nor does a search for any other location. -/
theorem added_at_zero (s : Board) (u u' : Blink) (hu : u.location = 0) (h : (s.mp1IoctlAdd u).1 = 0)
    (hu' : u'.location < 2000) :
    ∃ p t, s.mp1Malloc = some p ∧ (s.mp1IoctlAdd u).2.mp1Malloc = some p ∧
      (s.mp1IoctlAdd u).2.mp1IoctlAdd u' = (0, t) ∧ t.listHead = some p ∧ t.next p = some p ∧
      (∀ n, t.mp1RtcTasklet n = none) ∧ ∀ n ax, ax ≠ u'.location → t.mp1FindHelper n ax = none := by
  obtain ⟨hlow, p, hp⟩ := Board.mp1IoctlAdd_accepted h
  have hagain := Board.mp1Malloc_again hu h hp
  obtain ⟨-, hhead, -⟩ := Board.mp1IoctlAdd_eq hlow hp
  obtain ⟨hret, hhead', harray⟩ := Board.mp1IoctlAdd_eq (UInt16.not_le.mpr hu') hagain
  generalize (s.mp1IoctlAdd u).2.mp1IoctlAdd u' = r at hret hhead' harray
  rw [hhead] at harray
  have hself : r.2.next p = some p := by simp [Board.next, harray]
  refine ⟨p, r.2, hp, hagain, by rw [← hret], hhead', hself, fun n => ?_, fun n ax hax => ?_⟩
  · rw [Board.mp1RtcTasklet, hhead']
    exact Board.taskletLoop_forever hself n
  · rw [Board.mp1FindHelper, hhead']
    apply walk_forever (l := [p]) _ (List.mem_singleton_self p)
    simp [harray, hself, hax.symm]

theorem added_at_zero_fish :
    ∃ p t, (Board.start fun _ => 0).mp1Malloc = some p ∧
      ((Board.start fun _ => 0).mp1IoctlAdd Blink.zero).2.mp1Malloc = some p ∧
      ((Board.start fun _ => 0).mp1IoctlAdd Blink.zero).2.mp1IoctlAdd fishBlink = (0, t) ∧
      t.listHead = some p ∧ t.next p = some p ∧
      (∀ n, t.mp1RtcTasklet n = none) ∧ ∀ n ax, ax ≠ fishBlink.location → t.mp1FindHelper n ax = none :=
  added_at_zero _ _ _ rfl (by decide +kernel) (by decide)

end Blinks

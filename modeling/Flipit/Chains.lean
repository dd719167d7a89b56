import Mathlib.Data.List.Nodup
import Mathlib.Data.List.Basic
import Mathlib.Logic.Function.Basic

/- Singly linked lists in a memory: `next` is each cell's pointer, `none` the null
   pointer. `Chain next p l` says that the walk from `p` meets the cells `l` and ends.

   A search (`walk`) and the search for the place that points to a cell (`holder`) are
   loops with a bound on their turns; on a chain shorter than the bound they find what
   `List.find?` finds and the place before the cell. On a chain that runs back into itself
   a search without a hit takes any number of turns. -/
namespace Chains

variable {α β : Type} {next next' : α → Option α} {p q : Option α} {a b : α} {l r : List α}

def Chain (next : α → Option α) : Option α → List α → Prop
  | p, [] => p = none
  | p, a :: l => p = some a ∧ Chain next (next a) l

/-- The first cell from `p` on with `test`, in at most `n` turns. -/
def walk (next : α → Option α) (test : α → Bool) : Nat → Option α → Option (Option α)
  | 0, _ => none
  | _ + 1, none => some none
  | n + 1, some a => if test a then some (some a) else walk next test n (next a)

/-- What is stored in a place: at the head, or in a cell. -/
def held (head : Option α) (next : α → Option α) : Option α → Option α
  | none => head
  | some b => next b

/-- The place, from `q` on, that points to `a`. -/
def holder [DecidableEq α] (head : Option α) (next : α → Option α) (a : α) : Nat → Option α → Option (Option α)
  | 0, _ => none
  | n + 1, q =>
    if held head next q = some a then some q
    else (held head next q).bind fun b => holder head next a n (some b)

/-! ## Chains -/

@[simp] theorem chain_nil : Chain next p [] ↔ p = none := Iff.rfl

@[simp] theorem chain_cons : Chain next p (a :: l) ↔ p = some a ∧ Chain next (next a) l := Iff.rfl

theorem Chain.head (h : Chain next p l) : p = l.head? := by
  cases l with
  | nil => simpa using h
  | cons a l => simpa using h.1

theorem Chain.congr (h : Chain next p l) (hl : ∀ a ∈ l, next' a = next a) : Chain next' p l := by
  induction l generalizing p with
  | nil => exact h
  | cons a l ih =>
    rw [chain_cons, hl a (List.mem_cons_self ..)]
    exact ⟨h.1, ih h.2 fun b hb => hl b (List.mem_cons_of_mem a hb)⟩

theorem Chain.push [DecidableEq α] (h : Chain next p l) (ha : a ∉ l) :
    Chain (Function.update next a p) (some a) (a :: l) := by
  simp only [chain_cons, Function.update_self, true_and]
  apply h.congr
  intro b hb
  have hne : b ≠ a := fun hba => ha (by rwa [← hba])
  exact Function.update_of_ne hne ..

theorem Chain.walk (h : Chain next p l) (test : α → Bool) {n : Nat} (hn : l.length < n) :
    walk next test n p = some (l.find? test) := by
  induction l generalizing p n with
  | nil =>
    obtain ⟨n, rfl⟩ := Nat.exists_eq_add_of_lt hn
    simp [h.head, Chains.walk]
  | cons a l ih =>
    obtain ⟨n, rfl⟩ := Nat.exists_eq_add_of_lt hn
    have hrest := ih h.2 (show l.length < (a :: l).length + n by rw [List.length_cons]; omega)
    rw [h.1, Chains.walk, List.find?_cons]
    cases test a with
    | true => simp
    | false => simpa using hrest

/-! ## Unlinking -/

section
variable [DecidableEq α]

theorem Chain.holder_cons (h : Chain next (held p next q) (l ++ a :: r)) (ha : a ∉ l) {n : Nat} (hn : l.length < n) :
    holder p next a n q = some (l.getLast?.or q) := by
  induction l generalizing q n with
  | nil =>
    obtain ⟨n, rfl⟩ := Nat.exists_eq_add_of_lt hn
    simp [holder, h.1]
  | cons b l ih =>
    obtain ⟨n, rfl⟩ := Nat.exists_eq_add_of_lt hn
    have hne : b ≠ a := fun hba => ha (hba ▸ List.mem_cons_self ..)
    have hrest := ih (q := some b) h.2 (fun hl => ha (List.mem_cons_of_mem b hl))
      (show l.length < (b :: l).length + n by rw [List.length_cons]; omega)
    rw [holder, if_neg (by simpa [h.1] using hne), h.1, Option.bind_some, hrest]
    cases l with
    | nil => simp
    | cons c l => rw [List.getLast?_cons_cons, List.getLast?_eq_some_getLast (by simp), Option.some_or, Option.some_or]

theorem Chain.holder (h : Chain next p (l ++ a :: r)) (ha : a ∉ l) {n : Nat} (hn : l.length < n) :
    holder p next a n none = some l.getLast? := by
  simpa using Chain.holder_cons (q := none) h ha hn

/-- The place before a cell is given the cell's pointer: the cell is out of the chain. -/
theorem Chain.unlink (h : Chain next p (l ++ a :: r)) (hnodup : (l ++ a :: r).Nodup)
    (hnext : ∀ b ∈ l ++ r, next' b = if l.getLast? = some b then next a else next b)
    (hq : q = if l = [] then next a else p) : Chain next' q (l ++ r) := by
  induction l generalizing p q with
  | nil =>
    simp only [if_true, List.nil_append] at hq h ⊢
    rw [hq]
    apply h.2.congr
    intro b hb
    simpa using hnext b hb
  | cons c l ih =>
    have hc : next' c = if l = [] then next a else next c := by
      rw [hnext c (by simp)]
      cases l with
      | nil => simp
      | cons d l =>
        have hlast : (d :: l).getLast? ≠ some c := by
          intro hlast
          have hmem := List.mem_of_getLast? hlast
          simp only [List.cons_append, List.nodup_cons, List.mem_cons, List.mem_append] at hnodup hmem
          tauto
        simp [List.getLast?_cons_cons, hlast]
    simp only [List.cons_append, chain_cons, reduceCtorEq, if_false] at hq h ⊢
    refine ⟨hq.trans h.1, ih h.2 (List.nodup_cons.mp hnodup).2 (fun b hb => ?_) hc⟩
    rw [hnext b (List.mem_cons_of_mem c hb)]
    cases l with
    | cons d l => rw [List.getLast?_cons_cons]
    | nil =>
      have hne : c ≠ b := fun hcb => (List.nodup_cons.mp hnodup).1 (by simp_all)
      simp [hne]

end

/-! ## Chains without an end -/

theorem walk_found {next : α → Option α} {test : α → Bool} {n : Nat} {p : Option α} {a : α}
    (h : walk next test n p = some (some a)) : test a = true := by
  induction n generalizing p with
  | zero => cases h
  | succ n ih =>
    cases p with
    | none => cases h
    | some b =>
      rw [walk] at h
      split at h
      · rename_i hb
        obtain rfl := Option.some.inj (Option.some.inj h)
        exact hb
      · exact ih h

theorem walk_forever {test : α → Bool} (hl : ∀ a ∈ l, test a = false ∧ ∃ b ∈ l, next a = some b) (ha : a ∈ l)
    (n : Nat) : walk next test n (some a) = none := by
  induction n generalizing a with
  | zero => rfl
  | succ n ih =>
    obtain ⟨htest, b, hb, hnext⟩ := hl a ha
    rw [walk, htest, if_neg (by decide), hnext]
    exact ih hb

/-! ## What the cells hold -/

/-- A change of the cell that a search finds, in the list of what the cells hold. -/
theorem map_update_find [DecidableEq α] (h : l.Nodup) (test : β → Bool) (f : α → β) (c : β)
    (ha : l.find? (fun x => test (f x)) = some a) :
    l.map (Function.update f a c) = (l.map f).set ((l.map f).findIdx test) c := by
  induction l with
  | nil => simp at ha
  | cons b l ih =>
    rw [List.map_cons, List.map_cons, List.findIdx_cons]
    rw [List.find?_cons] at ha
    cases htest : test (f b) with
    | true =>
      obtain rfl : b = a := by simpa [htest] using ha
      have hrest : l.map (Function.update f b c) = l.map f := by
        apply List.map_congr_left
        intro x hx
        have hne : x ≠ b := fun hxb => (List.nodup_cons.mp h).1 (by rwa [← hxb])
        exact Function.update_of_ne hne ..
      simp [hrest]
    | false =>
      simp only [htest] at ha
      have hmem := List.mem_of_find?_eq_some ha
      have hne : b ≠ a := fun hba => (List.nodup_cons.mp h).1 (hba ▸ hmem)
      simp [Function.update_of_ne hne, ih (List.nodup_cons.mp h).2 ha]

end Chains

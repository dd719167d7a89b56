import Mathlib.Data.List.Infix
import Mathlib.Data.List.TakeWhile
import Flipit.Bytes

/- Lines of a text, cut into pieces of a width, and strings inside lines.

   `pieces w cur s` is what a reader with a buffer of `w` bytes makes of a text: `cur` is the
   line so far, a newline ends it, and so do `w` bytes. `upToNul` is what a C string shows of
   a piece; two pieces of one length are `Alike` if they show the same, which is all that
   `strcpy` keeps of a piece with a zero byte in it. `Reported` says which outputs of a
   search of the pieces are right: the text before the zero byte counts, and so does the
   whole piece where there is none. -/
namespace Lines
open Bytes

/-- The pieces of a text. The last one has no end of its own and is left out if empty. -/
def pieces (w : Nat) : List UInt8 → List UInt8 → List (List UInt8)
  | cur, [] => if cur = [] then [] else [cur]
  | cur, c :: s =>
    if c = 0x0A then cur :: pieces w [] s
    else if cur.length + 1 = w then (cur ++ [c]) :: pieces w [] s
    else pieces w (cur ++ [c]) s

/-- The string at the start of a piece. -/
def upToNul (l : List UInt8) : List UInt8 := l.takeWhile (· ≠ 0)

/-- Pieces of one length that show the same string. -/
structure Alike (l l' : List UInt8) : Prop where
  length : l'.length = l.length
  shown : upToNul l' = upToNul l

variable {w : Nat} {cur l l' s t out out' : List UInt8} {ls ls' : List (List UInt8)}

theorem Alike.refl (l : List UInt8) : Alike l l := ⟨rfl, rfl⟩

theorem upToNul_begins (l : List UInt8) : upToNul l <+: l := List.takeWhile_prefix _

theorem upToNul_eq (h : 0 ∉ l) : upToNul l = l := by
  apply List.takeWhile_eq_self_iff.mpr
  intro c hc
  have hne : c ≠ 0 := fun h0 => h (h0 ▸ hc)
  simpa using hne

theorem Alike.exact (h : Alike l l') (h0 : 0 ∉ l) : l' = l := by
  have hshown : upToNul l' = l := h.shown.trans (upToNul_eq h0)
  have hbegins : l <+: l' := hshown ▸ upToNul_begins l'
  exact (hbegins.eq_of_length h.length.symm).symm

theorem upToNul_append (h : 0 ∈ l) (t : List UInt8) : upToNul (l ++ t) = upToNul l := by
  rw [upToNul, List.takeWhile_append, if_neg]
  · rfl
  · intro hlen
    have hself := (upToNul_begins l).eq_of_length hlen
    have hzero : (0 : UInt8) ∈ upToNul l := hself.symm ▸ h
    simpa using List.mem_takeWhile_imp hzero

theorem Alike.zero_mem (h : Alike l l') (h0 : 0 ∈ l) : 0 ∈ l' := by
  by_contra hn
  have hlen := congrArg List.length (h.shown.symm.trans (upToNul_eq hn))
  rw [h.length] at hlen
  have hself := (upToNul_begins l).eq_of_length hlen
  have hzero : (0 : UInt8) ∈ upToNul l := hself.symm ▸ h0
  simpa using List.mem_takeWhile_imp hzero

theorem Alike.append (h : Alike l l') (t : List UInt8) : Alike (l ++ t) (l' ++ t) := by
  refine ⟨by simp [h.length], ?_⟩
  by_cases h0 : 0 ∈ l
  · rw [upToNul_append h0, upToNul_append (h.zero_mem h0), h.shown]
  · rw [h.exact h0]

/-! ## The pieces of a text in two parts -/

theorem pieces_append (hn : 0x0A ∉ t) (hw : cur.length + t.length < w) :
    pieces w cur (t ++ s) = pieces w (cur ++ t) s := by
  induction t generalizing cur with
  | nil => simp
  | cons c t ih =>
    rw [List.mem_cons, not_or] at hn
    rw [List.length_cons] at hw
    rw [List.cons_append, pieces, if_neg (fun h => hn.1 h.symm), if_neg (by omega),
      ih hn.2 (by rw [List.length_append, List.length_singleton]; omega), List.append_assoc, List.singleton_append]

theorem pieces_newline (hn : 0x0A ∉ t) (hw : cur.length + t.length < w) :
    pieces w cur (t ++ 0x0A :: s) = (cur ++ t) :: pieces w [] s := by
  rw [pieces_append hn hw, pieces, if_pos rfl]

theorem pieces_full (hn : 0x0A ∉ t) (ht : t ≠ []) (hw : cur.length + t.length = w) :
    pieces w cur (t ++ s) = (cur ++ t) :: pieces w [] s := by
  obtain ⟨t, c, rfl⟩ := (List.eq_nil_or_concat t).resolve_left ht
  rw [List.concat_eq_append] at hn hw ⊢
  rw [List.mem_append, not_or] at hn
  rw [List.length_append, List.length_singleton] at hw
  have hc : c ≠ 0x0A := fun h => hn.2 (by simp [h])
  rw [List.append_assoc, List.singleton_append, pieces_append hn.1 (by omega), pieces, if_neg hc,
    if_pos (by rw [List.length_append]; omega), List.append_assoc]

theorem pieces_last (hn : 0x0A ∉ t) (hne : cur ++ t ≠ []) (hw : cur.length + t.length ≤ w) :
    pieces w cur t = [cur ++ t] := by
  by_cases ht : t = []
  · subst ht
    rw [List.append_nil] at hne ⊢
    rw [pieces, if_neg hne]
  · rcases Nat.eq_or_lt_of_le hw with heq | hlt
    · have hfull := pieces_full (s := []) hn ht heq
      rw [List.append_nil] at hfull
      rw [hfull]
      rfl
    · have happend := pieces_append (s := []) hn hlt
      rw [List.append_nil] at happend
      rw [happend, pieces, if_neg hne]

/-! ## Searching the pieces -/

/-- What a search for `s` may print of the pieces: for a hit `message` of the string at the
start. A piece with a zero byte may be hit for what lies behind it, but need not. -/
inductive Reported (s : List UInt8) (message : List UInt8 → List UInt8) : List (List UInt8) → List UInt8 → Prop where
  | nil : Reported s message [] []
  | hit {l : List UInt8} {ls : List (List UInt8)} {out : List UInt8} (h : s <:+: l ∨ 0 ∈ l)
      (hr : Reported s message ls out) : Reported s message (l :: ls) (message (upToNul l) ++ out)
  | miss {l : List UInt8} {ls : List (List UInt8)} {out : List UInt8} (h : ¬ s <:+: upToNul l)
      (hr : Reported s message ls out) : Reported s message (l :: ls) out

variable {message : List UInt8 → List UInt8}

theorem Reported.append (h : Reported s message ls out) (h' : Reported s message ls' out') :
    Reported s message (ls ++ ls') (out ++ out') := by
  induction h with
  | nil => exact h'
  | hit h hr ih =>
    rw [List.append_assoc]
    exact .hit h ih
  | miss h hr ih => exact .miss h ih

theorem Reported.alike (h : Alike l l') :
    Reported s message [l] (if s <:+: l' then message (upToNul l') else []) := by
  split
  · rename_i hs
    rw [h.shown]
    have hhit : s <:+: l ∨ 0 ∈ l := by
      by_cases h0 : 0 ∈ l
      · exact .inr h0
      · exact .inl (h.exact h0 ▸ hs)
    simpa using Reported.hit hhit .nil
  · rename_i hs
    refine .miss ?_ .nil
    intro hs'
    rw [← h.shown] at hs'
    exact hs (hs'.trans (upToNul_begins l').isInfix)

/-- Without zero bytes a right output is the messages of the pieces with `s` in them. -/
theorem Reported.exact (h : Reported s message ls out) (h0 : ∀ l ∈ ls, 0 ∉ l) :
    out = (ls.filter fun l => decide (s <:+: l)).flatMap message := by
  induction h with
  | nil => rfl
  | @hit l ls out h hr ih =>
    have hl : 0 ∉ l := h0 l (.head _)
    rw [List.filter_cons_of_pos (by simpa using h.resolve_right hl), List.flatMap_cons, upToNul_eq hl,
      ih fun l hl => h0 l (.tail _ hl)]
  | @miss l ls out h hr ih =>
    rw [upToNul_eq (h0 l (.head _))] at h
    rw [List.filter_cons_of_neg (by simpa using h), ih fun l hl => h0 l (.tail _ hl)]

/-! ## Strings in a memory -/

section
variable {m : Memory} {n b : Nat}

theorem stringAt_upToNul (h0 : m n = 0) (hn : n < b) : stringAt m b = upToNul ((List.range n).map m) := by
  obtain ⟨-, hne, hzero⟩ := strlen_spec m b
  have hle : strlen m b ≤ n := by
    by_contra hlt
    exact hne n (by omega) h0
  have hsplit : (List.range n).map m =
      stringAt m b ++ (List.range (n - strlen m b)).map fun j => m (strlen m b + j) := by
    rw [stringAt, ← Nat.add_sub_cancel' hle, List.range_add, List.map_append, List.map_map, Nat.add_sub_cancel_left]
    rfl
  have hbehind : ((List.range (n - strlen m b)).map fun j => m (strlen m b + j)).takeWhile (· ≠ 0) = [] := by
    cases hrest : n - strlen m b with
    | zero => rfl
    | succ k => simp [List.range_succ_eq_map, hzero (by omega)]
  rw [hsplit, upToNul, List.takeWhile_append_of_pos, hbehind, List.append_nil]
  intro c hc
  have hne : c ≠ 0 := fun h => zero_notMem_stringAt (h ▸ hc)
  simpa using hne

/-- Two memories show the same string in their first `n` bytes if they agree up to a zero byte. -/
theorem upToNul_congr {m' : Memory} {len : Nat} (hlen : len ≤ n) (hm : ∀ i, i ≤ len → i < n → m' i = m i)
    (h0 : len < n → m len = 0) : upToNul ((List.range n).map m') = upToNul ((List.range n).map m) := by
  by_cases hlt : len < n
  · have hcut : ∀ {m : Memory}, m len = 0 → upToNul ((List.range n).map m) = upToNul ((List.range (len + 1)).map m) := by
      intro m hzero
      rw [show n = len + 1 + (n - (len + 1)) by omega, List.range_add, List.map_append]
      apply upToNul_append
      exact List.mem_map.mpr ⟨len, by simp, hzero⟩
    rw [hcut (h0 hlt), hcut ((hm len (le_refl _) hlt).trans (h0 hlt))]
    congr 1
    apply List.map_congr_left
    intro i hi
    have hle := List.mem_range.mp hi
    exact hm i (by omega) (by omega)
  · congr 1
    apply List.map_congr_left
    intro i hi
    have hle := List.mem_range.mp hi
    exact hm i (by omega) hle

end

end Lines

import Mathlib.Data.List.Basic

/- Text in rows.

   `rows w brk s` is the text `s` laid out in `w` columns: a break ends a row and is not
   shown, and a line that does not fit goes on in the next row. A line of exactly `w`
   characters is one row, so a full row is only left when one more character comes.
   `cell h` is what a window on the last `h` rows shows.

   A text grows at its end: `rows_break` and `rows_char` say what one more character does to
   the rows, `cell_newRow` and `cell_char` what that does to the window. -/
namespace Wrap

variable {α : Type}

/-- A line in rows of `w` columns: one row if it fits. -/
def rowsOf (w : Nat) (l : List α) : List (List α) :=
  if 0 < w ∧ w < l.length then l.take w :: rowsOf w (l.drop w) else [l]
termination_by l.length
decreasing_by
  rw [List.length_drop]
  omega

/-- A text in rows of `w` columns. -/
def rows (w : Nat) (brk : α → Bool) (s : List α) : List (List α) := (s.splitOnP brk).flatMap (rowsOf w)

/-- The character in row `y` and column `x` of the last `h` rows; where there is none, `blank`. -/
def cell (h : Nat) (blank : α) (rs : List (List α)) (y x : Nat) : α :=
  ((rs.drop (rs.length - h))[y]?.bind fun r => r[x]?).getD blank

/-! ## One more character -/

section
variable {w : Nat} {brk : α → Bool}

/-- The rows `rs` after one more character: in the last row if it has room, in a row of its own
otherwise. -/
inductive Grown (w : Nat) (c : α) : List (List α) → List (List α) → Prop where
  | room {init : List (List α)} {r : List α} (h : r.length < w) : Grown w c (init ++ [r]) (init ++ [r ++ [c]])
  | full {init : List (List α)} {r : List α} (h : r.length = w) :
      Grown w c (init ++ [r]) (init ++ [r] ++ [[c]])

theorem Grown.append {c : α} {rs rs' : List (List α)} (h : Grown w c rs rs') (before : List (List α)) :
    Grown w c (before ++ rs) (before ++ rs') := by
  cases h with
  | room h =>
    rw [← List.append_assoc, ← List.append_assoc]
    exact .room h
  | full h =>
    rw [← List.append_assoc, ← List.append_assoc, ← List.append_assoc]
    exact .full h

theorem rowsOf_fits {l : List α} (h : l.length ≤ w) : rowsOf w l = [l] := by
  rw [rowsOf, if_neg (by omega)]

theorem rowsOf_more (hw : 0 < w) {l : List α} (h : w < l.length) :
    rowsOf w l = l.take w :: rowsOf w (l.drop w) := by
  rw [rowsOf, if_pos ⟨hw, h⟩]

theorem rowsOf_char (hw : 0 < w) (l : List α) (c : α) : Grown w c (rowsOf w l) (rowsOf w (l ++ [c])) := by
  -- on the rows the line already has
  fun_induction rowsOf w l with
  | case1 l h ih =>
    have hmore : w < (l ++ [c]).length := by
      rw [List.length_append]
      omega
    rw [rowsOf_more hw hmore, List.take_append_of_le_length (by omega), List.drop_append_of_le_length (by omega)]
    exact ih.append [_]
  | case2 l h =>
    have hlen : (l ++ [c]).length = l.length + 1 := by simp
    by_cases hfull : l.length = w
    · rw [rowsOf_more hw (by omega), List.take_left' hfull, List.drop_left' hfull, rowsOf_fits (l := [c]) hw]
      change Grown w c ([] ++ [l]) ([] ++ [l] ++ [[c]])
      exact .full hfull
    · rw [rowsOf_fits (by omega)]
      change Grown w c ([] ++ [l]) ([] ++ [l ++ [c]])
      exact .room (by omega)

theorem splitOnP_char {c : α} (hc : brk c = false) (s : List α) :
    ∃ init l, s.splitOnP brk = init ++ [l] ∧ (s ++ [c]).splitOnP brk = init ++ [l ++ [c]] := by
  induction s with
  | nil => exact ⟨[], [], by simp, by simp [List.splitOnP_cons_eq_if_modifyHead, hc]⟩
  | cons x s ih =>
    obtain ⟨init, l, h1, h2⟩ := ih
    rw [List.cons_append, List.splitOnP_cons_eq_if_modifyHead, List.splitOnP_cons_eq_if_modifyHead, h1, h2]
    by_cases hx : brk x
    · rw [if_pos hx, if_pos hx]
      exact ⟨[] :: init, l, rfl, rfl⟩
    · rw [if_neg hx, if_neg hx]
      cases init with
      | nil => exact ⟨[], x :: l, rfl, rfl⟩
      | cons i init => exact ⟨(x :: i) :: init, l, rfl, rfl⟩

theorem rowsOf_width (hw : 0 < w) (l : List α) : ∀ r ∈ rowsOf w l, r.length ≤ w := by
  fun_induction rowsOf w l with
  | case1 l h ih =>
    intro r hr
    rcases List.mem_cons.mp hr with rfl | hr
    · exact List.length_take_le w l
    · exact ih r hr
  | case2 l h =>
    intro r hr
    rw [List.mem_singleton.mp hr]
    omega

theorem rows_width (hw : 0 < w) (s : List α) : ∀ r ∈ rows w brk s, r.length ≤ w := by
  intro r hr
  obtain ⟨l, -, hr⟩ := List.mem_flatMap.mp hr
  exact rowsOf_width hw l r hr

theorem rows_nil (w : Nat) (brk : α → Bool) : rows w brk [] = [[]] := by
  rw [rows, List.splitOnP_nil, List.flatMap_singleton, rowsOf_fits (Nat.zero_le _)]

theorem rows_break (w : Nat) {c : α} (hc : brk c = true) (s : List α) :
    rows w brk (s ++ [c]) = rows w brk s ++ [[]] := by
  rw [rows, List.splitOnP_append_cons s [] hc, List.flatMap_append, List.splitOnP_nil, List.flatMap_singleton,
    rowsOf_fits (Nat.zero_le _)]
  rfl

theorem rows_char (hw : 0 < w) {c : α} (hc : brk c = false) (s : List α) :
    Grown w c (rows w brk s) (rows w brk (s ++ [c])) := by
  obtain ⟨init, l, h1, h2⟩ := splitOnP_char hc s
  rw [rows, rows, h1, h2, List.flatMap_append, List.flatMap_append, List.flatMap_singleton,
    List.flatMap_singleton]
  exact (rowsOf_char hw l c).append _

theorem rows_ne_nil (hw : 0 < w) (s : List α) : rows w brk s ≠ [] := by
  intro hnil
  obtain ⟨l, ls, hl⟩ := List.exists_cons_of_ne_nil (List.splitOnP_ne_nil brk s)
  rw [rows, hl, List.flatMap_cons, List.append_eq_nil_iff] at hnil
  by_cases h : w < l.length
  · rw [rowsOf_more hw h] at hnil
    cases hnil.1
  · rw [rowsOf_fits (by omega)] at hnil
    cases hnil.1

end

/-! ## The window -/

section
variable {h : Nat} {blank : α} {rs init : List (List α)} {r : List α} {y x : Nat}

theorem cell_eq : cell h blank rs y x = (rs[rs.length - h + y]?.bind fun r => r[x]?).getD blank := by
  rw [cell, List.getElem?_drop]

theorem cell_newRow (hy : y < h) :
    cell h blank (rs ++ [[]]) y x =
      if rs.length < h then cell h blank rs y x
      else if y + 1 < h then cell h blank rs (y + 1) x else blank := by
  simp only [cell_eq, List.length_append, List.length_singleton]
  by_cases hroom : rs.length < h
  · rw [if_pos hroom, show rs.length + 1 - h = 0 by omega, show rs.length - h = 0 by omega, Nat.zero_add]
    by_cases hin : y < rs.length
    · rw [List.getElem?_append_left hin]
    · rw [List.getElem?_append_right (by omega), List.getElem?_eq_none (l := rs) (by omega)]
      cases y - rs.length with
      | zero => simp
      | succ n => simp
  · rw [if_neg hroom]
    by_cases hin : y + 1 < h
    · rw [if_pos hin, List.getElem?_append_left (by omega),
        show rs.length + 1 - h + y = rs.length - h + (y + 1) by omega]
    · rw [if_neg hin, List.getElem?_append_right (by omega),
        show rs.length + 1 - h + y - rs.length = 0 by omega]
      simp

/-- One more character in the last row changes one cell, if the last row is in the window. -/
theorem cell_char (c : α) (hy : y < h) :
    cell h blank (init ++ [r ++ [c]]) y x =
      if y + 1 = min (init.length + 1) h ∧ x = r.length then c else cell h blank (init ++ [r]) y x := by
  simp only [cell_eq, List.length_append, List.length_singleton]
  generalize hi : init.length + 1 - h + y = i
  by_cases hlast : i < init.length
  · rw [if_neg (by omega), List.getElem?_append_left hlast, List.getElem?_append_left hlast]
  · by_cases hrow : i = init.length
    · rw [hrow, List.getElem?_concat_length, List.getElem?_concat_length, Option.bind_some, Option.bind_some]
      by_cases hx : x = r.length
      · rw [if_pos (by omega), hx, List.getElem?_concat_length, Option.getD_some]
      · rw [if_neg (by omega)]
        by_cases hin : x < r.length
        · rw [List.getElem?_append_left hin]
        · rw [List.getElem?_eq_none (by simp; omega), List.getElem?_eq_none (by omega)]
    · rw [if_neg (by omega), List.getElem?_eq_none (by simp; omega), List.getElem?_eq_none (by simp; omega)]

end

end Wrap

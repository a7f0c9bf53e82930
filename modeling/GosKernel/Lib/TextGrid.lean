import Mathlib.Data.List.Basic

/-!
# Text in a window of rows

Text is split at its line breaks and each line into rows of at most `w` (`layout`). A window
of `h` rows shows the last ones (`cell`). Appending a character to the text changes the last
row or begins another one (`layout_snoc`), and each of the two changes the window in one way
(`cell_newRow_of_lt` and its like, `cell_put`).
-/

namespace GosKernel.TextGrid

open List

variable {α : Type} {w h : Nat}

/-! ## Rows -/

/-- The rows of a line. The last one may be full; only an empty line has an empty row. -/
def wrapLine (w : Nat) (l : List α) : List (List α) :=
  if 0 < w ∧ w < l.length then l.take w :: wrapLine w (l.drop w) else [l]
termination_by l.length
decreasing_by
  rw [List.length_drop]
  omega

/-- The rows of a text. -/
def layout (w : Nat) (isBreak : α → Bool) (text : List α) : List (List α) :=
  (text.splitOnP isBreak).flatMap (wrapLine w)

theorem wrapLine_of_le {l : List α} (h : l.length ≤ w) : wrapLine w l = [l] := by
  rw [wrapLine, if_neg]
  exact fun hlong => Nat.not_lt.mpr h hlong.2

theorem splitOnP_snoc (p : α → Bool) (text : List α) :
    ∃ init last, text.splitOnP p = init ++ [last] ∧ ∀ c, (text ++ [c]).splitOnP p =
      if p c then init ++ [last, []] else init ++ [last ++ [c]] := by
  induction text with
  | nil =>
    refine ⟨[], [], splitOnP_nil, fun c => ?_⟩
    rfl
  | cons x text ih =>
    obtain ⟨init, last, hsplit, hsnoc⟩ := ih
    simp only [cons_append, splitOnP_cons_eq_if_modifyHead, hsplit, hsnoc]
    by_cases hx : p x = true
    · refine ⟨[] :: init, last, by simp [hx], fun c => ?_⟩
      cases p c <;> simp [hx]
    · cases init with
      | nil =>
        refine ⟨[], x :: last, by simp [hx], fun c => ?_⟩
        cases p c <;> simp [hx]
      | cons line init =>
        refine ⟨(x :: line) :: init, last, by simp [hx], fun c => ?_⟩
        cases p c <;> simp [hx]

theorem wrapLine_snoc (hw : 0 < w) (l : List α) :
    ∃ init last, wrapLine w l = init ++ [last] ∧ last.length ≤ w ∧ ∀ c, wrapLine w (l ++ [c]) =
      if last.length < w then init ++ [last ++ [c]] else init ++ [last, [c]] := by
  induction l using wrapLine.induct w with
  | case1 l hlong ih =>
    obtain ⟨init, last, hwrap, hlast, hsnoc⟩ := ih
    refine ⟨l.take w :: init, last, ?_, hlast, fun c => ?_⟩
    · rw [wrapLine, if_pos hlong, hwrap, cons_append]
    · rw [wrapLine, if_pos ⟨hw, by rw [length_append]; exact Nat.lt_add_right _ hlong.2⟩,
        take_append_of_le_length (Nat.le_of_lt hlong.2),
        drop_append_of_le_length (Nat.le_of_lt hlong.2), hsnoc]
      split <;> rfl
  | case2 l hshort =>
    have hle : l.length ≤ w := Nat.not_lt.mp fun hlt => hshort ⟨hw, hlt⟩
    refine ⟨[], l, wrapLine_of_le hle, hle, fun c => ?_⟩
    by_cases hlt : l.length < w
    · rw [if_pos hlt, wrapLine_of_le (by rw [length_append]; exact hlt), nil_append]
    · -- the row is full, and the character begins another one
      have hfull : l.length = w := Nat.le_antisymm hle (Nat.not_lt.mp hlt)
      rw [if_neg hlt, wrapLine, if_pos (by rw [length_append, length_singleton]; omega),
        ← hfull, take_left, drop_left, wrapLine_of_le (by rw [hfull]; exact hw)]
      rfl

/-- **The rows of a text with one more character.** -/
theorem layout_snoc (hw : 0 < w) (isBreak : α → Bool) (text : List α) :
    ∃ init last, layout w isBreak text = init ++ [last] ∧ last.length ≤ w ∧
      ∀ c, layout w isBreak (text ++ [c]) =
        if isBreak c then init ++ [last, []]
        else if last.length < w then init ++ [last ++ [c]] else init ++ [last, [c]] := by
  obtain ⟨lines, line, hsplit, hsnoc⟩ := splitOnP_snoc isBreak text
  obtain ⟨init, last, hwrap, hlast, hwrapSnoc⟩ := wrapLine_snoc hw line
  have hempty : wrapLine w ([] : List α) = [[]] := wrapLine_of_le (Nat.zero_le w)
  refine ⟨lines.flatMap (wrapLine w) ++ init, last, ?_, hlast, fun c => ?_⟩
  · rw [layout, hsplit, flatMap_append, flatMap_singleton, hwrap, append_assoc]
  · rw [layout, hsnoc]
    split
    · rw [flatMap_append, flatMap_cons, flatMap_singleton, hwrap, hempty]
      simp
    · rw [flatMap_append, flatMap_singleton, hwrapSnoc]
      split <;> simp

/-! ## The window -/

/-- The last `h` rows. -/
def window (h : Nat) (rows : List (List α)) : List (List α) := rows.drop (rows.length - h)

/-- What is in a column of a row of the window. -/
def cell (h : Nat) (rows : List (List α)) (y x : Nat) : Option α :=
  (window h rows)[y]?.bind (·[x]?)

theorem cell_eq (rows : List (List α)) (y x : Nat) :
    cell h rows y x = rows[rows.length - h + y]?.bind (·[x]?) := by
  rw [cell, window, List.getElem?_drop]

/-- An empty row below all others changes nothing while there is room for it. -/
theorem cell_newRow_of_lt {rows : List (List α)} (hroom : rows.length < h) (y x : Nat) :
    cell h (rows ++ [[]]) y x = cell h rows y x := by
  rw [cell_eq, cell_eq, length_append, length_singleton,
    Nat.sub_eq_zero_of_le (Nat.succ_le_of_lt hroom), Nat.sub_eq_zero_of_le (Nat.le_of_lt hroom),
    Nat.zero_add]
  rcases Nat.lt_trichotomy y rows.length with hlt | heq | hgt
  · rw [List.getElem?_append_left hlt]
  · rw [heq, List.getElem?_concat_length, List.getElem?_eq_none (Nat.le_refl _)]
    rfl
  · rw [List.getElem?_eq_none (by simp; omega), List.getElem?_eq_none (Nat.le_of_lt hgt)]

/-- Otherwise the rows of the window move up. -/
theorem cell_newRow_of_ge {rows : List (List α)} (hfull : h ≤ rows.length) {y : Nat}
    (hy : y + 1 < h) (x : Nat) : cell h (rows ++ [[]]) y x = cell h rows (y + 1) x := by
  rw [cell_eq, cell_eq, length_append, length_singleton,
    List.getElem?_append_left (by omega)]
  congr 2
  omega

theorem cell_newRow_last {rows : List (List α)} (hfull : h ≤ rows.length) (x : Nat) (hh : 0 < h) :
    cell h (rows ++ [[]]) (h - 1) x = none := by
  have hlast : rows.length + 1 - h + (h - 1) = rows.length := by omega
  rw [cell_eq, length_append, length_singleton, hlast, List.getElem?_concat_length]
  rfl

/-- **A character more in the last row** is one cell of the window. -/
theorem cell_put (hh : 0 < h) (init : List (List α)) (last : List α) (c : α) (y x : Nat) :
    cell h (init ++ [last ++ [c]]) y x =
      if y = min init.length (h - 1) ∧ x = last.length then some c
      else cell h (init ++ [last]) y x := by
  rw [cell_eq, cell_eq, length_append, length_append, length_singleton,
    length_singleton]
  by_cases hy : y = min init.length (h - 1)
  · have hrow : init.length + 1 - h + y = init.length := by omega
    rw [hrow, List.getElem?_concat_length, List.getElem?_concat_length, Option.bind_some,
      Option.bind_some]
    by_cases hx : x = last.length
    · rw [if_pos ⟨hy, hx⟩, hx, List.getElem?_concat_length]
    · rw [if_neg fun hyx => hx hyx.2, List.getElem?_append]
      split
      · rfl
      · rw [List.getElem?_eq_none (by simp; omega), List.getElem?_eq_none (by omega)]
  · rw [if_neg fun hyx => hy hyx.1]
    have hrow : init.length + 1 - h + y ≠ init.length := by omega
    rcases Nat.lt_or_gt_of_ne hrow with hlt | hgt
    · rw [List.getElem?_append_left hlt, List.getElem?_append_left hlt]
    · rw [List.getElem?_eq_none (by simp; omega), List.getElem?_eq_none (by simp; omega)]

end GosKernel.TextGrid

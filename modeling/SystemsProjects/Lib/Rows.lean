import Mathlib.Data.List.Basic

/-!
# Texts in rows

A text laid out in rows of a given width: some characters end the row, and so does the
character that fills it.

- `layout`: the rows of a text, with the row the next character goes to as the last one.
- `layout_concat`: one more character changes the last row only.
- `lastRows`: the rows that fit on a screen.

The last row may be empty: it is the one that the next character goes to. A character that fills
a row ends it at once, and the new last row is empty, as on a screen whose cursor moves on by
itself.
-/

namespace SystemsProjects

universe u

variable {α : Type u}

section

variable (isBreak : α → Bool) (width : Nat)

/-- What becomes of the last row when a character is put behind it. -/
def putChar (row : List α) (c : α) : List (List α) :=
  if isBreak c then [row, []]
  else if row.length + 1 = width then [row ++ [c], []]
  else [row ++ [c]]

/-- A text laid out behind the beginning of a row. -/
def layoutFrom (row : List α) : List α → List (List α)
  | [] => [row]
  | c :: cs =>
    if isBreak c then row :: layoutFrom [] cs
    else if row.length + 1 = width then (row ++ [c]) :: layoutFrom [] cs
    else layoutFrom (row ++ [c]) cs

/-- A text laid out in rows. -/
def layout (text : List α) : List (List α) := layoutFrom isBreak width [] text

theorem layoutFrom_nil (row : List α) : layoutFrom isBreak width row [] = [row] := rfl

/-- A character at the end changes the last row only. -/
theorem layoutFrom_concat (row text : List α) (c : α) :
    ∃ above last, layoutFrom isBreak width row text = above ++ [last] ∧
      layoutFrom isBreak width row (text ++ [c]) = above ++ putChar isBreak width last c := by
  induction text generalizing row with
  | nil =>
    refine ⟨[], row, rfl, ?_⟩
    rw [List.nil_append, List.nil_append, layoutFrom, putChar]
    simp only [layoutFrom_nil]
  | cons d text ih =>
    rw [List.cons_append, layoutFrom, layoutFrom]
    by_cases hbreak : isBreak d = true
    · obtain ⟨above, last, hrows, hnext⟩ := ih []
      rw [if_pos hbreak, if_pos hbreak, hrows, hnext]
      exact ⟨row :: above, last, rfl, rfl⟩
    · rw [if_neg hbreak, if_neg hbreak]
      by_cases hfull : row.length + 1 = width
      · obtain ⟨above, last, hrows, hnext⟩ := ih []
        rw [if_pos hfull, if_pos hfull, hrows, hnext]
        exact ⟨(row ++ [d]) :: above, last, rfl, rfl⟩
      · rw [if_neg hfull, if_neg hfull]
        exact ih (row ++ [d])

/-- One more character changes the last row only. -/
theorem layout_concat (text : List α) (c : α) :
    ∃ above last, layout isBreak width text = above ++ [last] ∧
      layout isBreak width (text ++ [c]) = above ++ putChar isBreak width last c :=
  layoutFrom_concat isBreak width [] text c

end

/-! ## The rows on the screen -/

/-- The last `n` rows, or all when there are fewer. -/
def lastRows (n : Nat) (rows : List (List α)) : List (List α) := rows.drop (rows.length - n)

/-- The last `n` rows are `n`, or all there are. -/
theorem length_lastRows (n : Nat) (rows : List (List α)) :
    (lastRows n rows).length = min n rows.length := by
  rw [lastRows, List.length_drop]
  omega

theorem lastRows_of_le {n : Nat} {rows : List (List α)} (h : rows.length ≤ n) :
    lastRows n rows = rows := by
  rw [lastRows, Nat.sub_eq_zero_of_le h, List.drop_zero]

theorem lastRows_concat (n : Nat) (rows : List (List α)) (row : List α) :
    lastRows (n + 1) (rows ++ [row]) = lastRows n rows ++ [row] := by
  have hlen : (rows ++ [row]).length - (n + 1) = rows.length - n := by
    rw [List.length_append, List.length_singleton]
    omega
  rw [lastRows, hlen, List.drop_append_of_le_length (Nat.sub_le ..), lastRows]

/-- With too many rows, one row more on the screen is one more above. -/
theorem lastRows_succ {n : Nat} {rows : List (List α)} (h : n < rows.length) :
    ∃ row, lastRows (n + 1) rows = row :: lastRows n rows := by
  have hlt : rows.length - (n + 1) < rows.length := by omega
  have hsucc : rows.length - n = rows.length - (n + 1) + 1 := by omega
  refine ⟨rows[rows.length - (n + 1)], ?_⟩
  rw [lastRows, lastRows, hsucc]
  exact List.drop_eq_getElem_cons hlt

end SystemsProjects

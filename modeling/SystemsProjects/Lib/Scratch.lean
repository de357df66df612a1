import Mathlib.Data.List.Basic

/-!
# Arrays filled from the front

A program that collects items of unknown number writes them to an array one after the
other: it stores at an index and steps the index. `Scratch α` is such an array with its
index, and with the indices of all stores so far as a record beside it.

The array's end is not part of it: a store past the end adds a cell, so a program can be
followed through such a store and the record tells that it happened.

- `put`, `push`, `rewind`: `a[i] = x`, `a[i] = x; i++` and `i = 0`.
- `pushAll`: a run of pushes. `take_pushAll`, `written_pushAll`: what it leaves in the
  array and in the record.
- `fill`: the loop that pushes the elements of a list as long as they satisfy a test.
- `takeWhile_append_stop`, `dropWhile_append_stop`: where such a loop ends.

The record of stores is a list of indices, the oldest first, so whether all of them were inside
the array can be asked afterwards.
-/

namespace SystemsProjects

universe u

variable {α : Type u}

/-- An array, the index the next item goes to, and the indices of all stores so far. -/
structure Scratch (α : Type u) where
  cells : List α
  pointer : Nat := 0
  written : List Nat := []

namespace Scratch

variable (b : Scratch α)

/-- `cells[i] = a` -/
def store (cells : List α) (i : Nat) (a : α) : List α := cells.take i ++ a :: cells.drop (i + 1)

/-- `b[pointer] = a` -/
def put (a : α) : Scratch α :=
  { b with cells := store b.cells b.pointer a, written := b.written ++ [b.pointer] }

/-- `b[pointer] = a; pointer++` -/
def push (a : α) : Scratch α := { b.put a with pointer := b.pointer + 1 }

/-- `pointer = 0` -/
def rewind : Scratch α := { b with pointer := 0 }

/-- A run of pushes. -/
def pushAll (as : List α) : Scratch α := as.foldl push b

/-- Pushes the items of a list as long as they satisfy `p`; the rest is returned. -/
def fill (p : α → Bool) : Scratch α → List α → Scratch α × List α
  | b, [] => (b, [])
  | b, a :: as => if p a then fill p (b.push a) as else (b, a :: as)

/-! ## Single stores -/

@[simp] theorem put_cells (a : α) : (b.put a).cells = store b.cells b.pointer a := rfl

@[simp] theorem put_pointer (a : α) : (b.put a).pointer = b.pointer := rfl

@[simp] theorem put_written (a : α) : (b.put a).written = b.written ++ [b.pointer] := rfl

@[simp] theorem push_cells (a : α) : (b.push a).cells = store b.cells b.pointer a := rfl

@[simp] theorem push_pointer (a : α) : (b.push a).pointer = b.pointer + 1 := rfl

@[simp] theorem push_written (a : α) : (b.push a).written = b.written ++ [b.pointer] := rfl

@[simp] theorem rewind_cells : b.rewind.cells = b.cells := rfl

@[simp] theorem rewind_pointer : b.rewind.pointer = 0 := rfl

@[simp] theorem rewind_written : b.rewind.written = b.written := rfl

theorem take_store {cells : List α} {i : Nat} (h : i ≤ cells.length) (a : α) :
    (store cells i a).take (i + 1) = cells.take i ++ [a] := by
  have hlen : (cells.take i).length = i := List.length_take_of_le h
  rw [store, List.take_append, hlen, Nat.add_sub_cancel_left,
    List.take_of_length_le (by omega)]
  rfl

theorem length_le_store {cells : List α} {i : Nat} (h : i ≤ cells.length) (a : α) :
    i + 1 ≤ (store cells i a).length := by
  rw [store, List.length_append, List.length_take_of_le h, List.length_cons]
  omega

/-! ## Runs of stores -/

@[simp] theorem pushAll_nil : b.pushAll [] = b := rfl

@[simp] theorem pushAll_cons (a : α) (as : List α) :
    b.pushAll (a :: as) = (b.push a).pushAll as := rfl

/-- The pointer goes on by one for each element. -/
@[simp] theorem pointer_pushAll (as : List α) :
    (b.pushAll as).pointer = b.pointer + as.length := by
  induction as generalizing b with
  | nil => rfl
  | cons a as ih =>
    rw [pushAll_cons, ih, push_pointer, List.length_cons]
    omega

/-- The elements are written to consecutive cells. -/
@[simp] theorem written_pushAll (as : List α) :
    (b.pushAll as).written = b.written ++ List.range' b.pointer as.length := by
  induction as generalizing b with
  | nil => simp
  | cons a as ih =>
    rw [pushAll_cons, ih, push_written, push_pointer, List.length_cons, List.range'_succ,
      List.append_assoc]
    rfl

/-- In front of the index stands what was there, followed by what was pushed. -/
theorem take_pushAll (as : List α) (h : b.pointer ≤ b.cells.length) :
    (b.pushAll as).cells.take (b.pointer + as.length) = b.cells.take b.pointer ++ as ∧
      b.pointer + as.length ≤ (b.pushAll as).cells.length := by
  induction as generalizing b with
  | nil =>
    rw [pushAll_nil, List.append_nil]
    exact ⟨rfl, h⟩
  | cons a as ih =>
    obtain ⟨htake, hlen⟩ := ih (b.push a) (length_le_store h a)
    have hsum : b.pointer + (a :: as).length = (b.push a).pointer + as.length := by
      rw [push_pointer, List.length_cons]
      omega
    rw [hsum, pushAll_cons]
    refine ⟨?_, hlen⟩
    rw [htake, push_cells, push_pointer, take_store h, List.append_assoc]
    rfl

/-- From the start of the array: the pushed items, with the closing one behind them. -/
theorem cells_pushAll_put (as : List α) (a : α) (h : b.pointer = 0) :
    ∃ rest, ((b.pushAll as).put a).cells = as ++ a :: rest := by
  have hle : b.pointer ≤ b.cells.length := by
    rw [h]
    exact Nat.zero_le _
  have htake := (b.take_pushAll as hle).1
  rw [h, List.take_zero, List.nil_append, Nat.zero_add] at htake
  refine ⟨(b.pushAll as).cells.drop (as.length + 1), ?_⟩
  rw [put_cells, pointer_pushAll, store, h, Nat.zero_add, htake]

/-! ## The loop -/

/-- The loop pushes exactly the leading items that satisfy the test. -/
theorem fill_eq (p : α → Bool) (as : List α) :
    fill p b as = (b.pushAll (as.takeWhile p), as.dropWhile p) := by
  induction as generalizing b with
  | nil => rfl
  | cons a as ih =>
    rw [fill, List.takeWhile_cons, List.dropWhile_cons]
    by_cases h : p a = true
    · rw [if_pos h, if_pos h, if_pos h, ih, pushAll_cons]
    · rw [if_neg h, if_neg h, if_neg h, pushAll_nil]

end Scratch

section Stops

variable {p : α → Bool} {as rest : List α}

/-- The items a loop takes when all of `as` pass and the rest does not begin with one
that does. -/
theorem takeWhile_append_stop (has : ∀ a ∈ as, p a = true)
    (hrest : ∀ a, rest.head? = some a → p a = false) : (as ++ rest).takeWhile p = as := by
  rw [List.takeWhile_append_of_pos has]
  cases rest with
  | nil => simp
  | cons a rest => simp [hrest a rfl]

/-- What is dropped ends where the property first fails. -/
theorem dropWhile_append_stop (has : ∀ a ∈ as, p a = true)
    (hrest : ∀ a, rest.head? = some a → p a = false) : (as ++ rest).dropWhile p = rest := by
  rw [List.dropWhile_append_of_pos has]
  cases rest with
  | nil => simp
  | cons a rest => simp [hrest a rfl]

/-- Behind the items a loop took stands none that passes. -/
theorem head?_dropWhile_stop {a : α} (h : (as.dropWhile p).head? = some a) : p a = false := by
  have hne : as.dropWhile p ≠ [] := by
    intro hnil
    rw [hnil] at h
    cases h
  have hhead := List.head_dropWhile_not p hne
  rw [List.head?_eq_some_head hne] at h
  obtain rfl := Option.some.inj h
  exact hhead

end Stops

end SystemsProjects

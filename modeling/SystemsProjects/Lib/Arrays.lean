import Mathlib.Logic.Function.Basic

/-!
# Arrays as functions of their index

A C array is modelled as a total function from indices; whether an index is inside the
array is checked where it is used. `overwrite a n bs` is `a` with the elements of `bs`
stored from index `n` on; `StandsAt a n bs` says that they stand there already.

`overwrite` of one list behind another is `overwrite` of the concatenation, and both predicates
split the same way, so that code or text that is written piece by piece can be read as a whole.
-/

namespace SystemsProjects

universe u

variable {α : Type u}

/-- The array `a` with `bs` written over its elements from `n` on. -/
def overwrite (a : Nat → α) (n : Nat) (bs : List α) (i : Nat) : α :=
  if i < n then a i else (bs[i - n]?).getD (a i)

theorem overwrite_lt (a : Nat → α) {n i : Nat} (bs : List α) (hi : i < n) :
    overwrite a n bs i = a i := if_pos hi

theorem overwrite_add (a : Nat → α) (n : Nat) (bs : List α) (i : Nat) :
    overwrite a n bs (n + i) = (bs[i]?).getD (a (n + i)) := by
  rw [overwrite, if_neg (by omega), Nat.add_sub_cancel_left]

/-- Two overwritten arrays agree when they agree from `n` on and below. -/
theorem overwrite_eq {a a' : Nat → α} {n : Nat} {bs : List α}
    (hlt : ∀ i, i < n → a' i = a i) (hadd : ∀ i, a' (n + i) = (bs[i]?).getD (a (n + i))) :
    a' = overwrite a n bs := by
  funext i
  by_cases hi : i < n
  · rw [overwrite_lt a bs hi, hlt i hi]
  · obtain ⟨k, rfl⟩ := Nat.exists_eq_add_of_le (Nat.le_of_not_lt hi)
    rw [overwrite_add, hadd]

theorem overwrite_nil (a : Nat → α) (n : Nat) : a = overwrite a n [] :=
  overwrite_eq (fun _ _ => rfl) fun _ => rfl

/-- Writing two lists one behind the other is writing them together. -/
theorem overwrite_append (a : Nat → α) (n : Nat) (bs cs : List α) :
    overwrite (overwrite a n bs) (n + bs.length) cs = overwrite a n (bs ++ cs) := by
  refine overwrite_eq (fun i hi => ?_) fun i => ?_
  · rw [overwrite_lt _ cs (by omega), overwrite_lt a bs hi]
  · by_cases hb : i < bs.length
    · rw [overwrite_lt _ cs (by omega), overwrite_add, List.getElem?_append_left hb]
    · obtain ⟨k, rfl⟩ := Nat.exists_eq_add_of_le (Nat.le_of_not_lt hb)
      rw [← Nat.add_assoc, overwrite_add, Nat.add_assoc, overwrite_add,
        List.getElem?_append_right (by omega), Nat.add_sub_cancel_left,
        List.getElem?_eq_none (Nat.le_add_right _ k)]
      rfl

theorem update_overwrite_singleton (a : Nat → α) (n : Nat) (b : α) :
    Function.update a n b = overwrite a n [b] := by
  refine overwrite_eq (fun i hi => ?_) fun i => ?_
  · rw [Function.update_of_ne (by omega)]
  · cases i with
    | zero => rw [Nat.add_zero, Function.update_self]; rfl
    | succ i => rw [Function.update_of_ne (by omega)]; rfl

/-- Writing over a byte that was appended earlier. -/
theorem update_overwrite (a : Nat → α) (n : Nat) (bs cs : List α) (x y : α) :
    Function.update (overwrite a n (bs ++ x :: cs)) (n + bs.length) y
      = overwrite a n (bs ++ y :: cs) := by
  refine overwrite_eq (fun i hi => ?_) fun i => ?_
  · rw [Function.update_of_ne (by omega), overwrite_lt a _ hi]
  · rcases Nat.lt_trichotomy i bs.length with hi | rfl | hi
    · rw [Function.update_of_ne (by omega), overwrite_add, List.getElem?_append_left hi,
        List.getElem?_append_left hi]
    · rw [Function.update_self, List.getElem?_append_right (Nat.le_refl _), Nat.sub_self]
      rfl
    · obtain ⟨k, rfl⟩ := Nat.exists_eq_add_of_lt hi
      have hk : bs.length + k + 1 - bs.length = k + 1 := by omega
      rw [Function.update_of_ne (by omega), overwrite_add,
        List.getElem?_append_right (by omega), List.getElem?_append_right (by omega), hk]
      rfl

/-! ## Elements in place -/

/-- The array has the elements `bs` from index `n` on. -/
def StandsAt (a : Nat → α) (n : Nat) (bs : List α) : Prop :=
  ∀ i b, bs[i]? = some b → a (n + i) = b

/-- Both parts of a list stand where they should. -/
theorem StandsAt.append {a : Nat → α} {n : Nat} {bs cs : List α} (h : StandsAt a n (bs ++ cs)) :
    StandsAt a n bs ∧ StandsAt a (n + bs.length) cs := by
  constructor
  · intro i b hb
    obtain ⟨hi, -⟩ := List.getElem?_eq_some_iff.mp hb
    exact h i b (by rwa [List.getElem?_append_left hi])
  · intro i c hc
    rw [Nat.add_assoc]
    refine h (bs.length + i) c ?_
    rwa [List.getElem?_append_right (Nat.le_add_right _ i), Nat.add_sub_cancel_left]

/-- The first element, and the rest behind it. -/
theorem StandsAt.cons {a : Nat → α} {n : Nat} {b : α} {bs : List α} (h : StandsAt a n (b :: bs)) :
    a n = b ∧ StandsAt a (n + 1) bs :=
  ⟨h 0 b rfl, (show StandsAt a n ([b] ++ bs) from h).append.2⟩

/-- What is written over an array stands at the place it was written to. -/
theorem standsAt_overwrite (a : Nat → α) (n : Nat) (bs : List α) :
    StandsAt (overwrite a n bs) n bs := by
  intro i b hb
  rw [overwrite_add, hb]
  rfl

end SystemsProjects

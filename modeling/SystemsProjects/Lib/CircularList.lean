import Mathlib.Data.List.Iterate
import Mathlib.Data.List.Nodup
import Mathlib.Logic.Function.Basic

/-!
# Circular lists

Records that are linked in both directions through fields of their own, round and round.

- `Path next prev a l b`: links in both directions from `a` through `l` to `b`.
- `Circle next prev l`: the records `l` are linked in a circle, in this order. A circle may
  start anywhere (`Circle.rotate`).
- `Circle.unique`, `Path.iterate`: the links determine the circle, and lead through it.
- `Circle.single`, `Circle.insert`, `Circle.remove`: a first record, a record behind the first,
  and the first one taken out.

A path is a list of links without its ends, and a circle is a path back to where it started. The
operations change four links at most; that no other link changes is a hypothesis of the form
"agrees outside of these addresses", so that the lemmas apply to any memory that holds the
fields.
-/

namespace SystemsProjects

universe u

variable {α : Type u}

/-- Links in both directions from `a` through `l` to `b`. -/
def Path (next prev : α → α) : α → List α → α → Prop
  | a, [], b => next a = b ∧ prev b = a
  | a, x :: l, b => (next a = x ∧ prev x = a) ∧ Path next prev x l b

/-- The records are linked in a circle. -/
def Circle (next prev : α → α) : List α → Prop
  | [] => True
  | a :: l => (a :: l).Nodup ∧ Path next prev a l a

section

variable {next prev next' prev' : α → α} {a b c x : α} {l l₁ l₂ : List α}

theorem path_append : Path next prev a (l₁ ++ x :: l₂) b ↔
    Path next prev a l₁ x ∧ Path next prev x l₂ b := by
  induction l₁ generalizing a with
  | nil => exact Iff.rfl
  | cons y l₁ ih =>
    show (_ ∧ Path next prev y (l₁ ++ x :: l₂) b) ↔ (_ ∧ Path next prev y l₁ x) ∧ _
    rw [ih]
    exact and_assoc.symm

/-- A path depends on the forward links of all but its end, and on the backward links of all
but its start. -/
theorem Path.congr (h : Path next prev a l b) (hnext : ∀ y ∈ a :: l, next' y = next y)
    (hprev : ∀ y ∈ l ++ [b], prev' y = prev y) : Path next' prev' a l b := by
  induction l generalizing a with
  | nil =>
    constructor
    · rw [hnext a (List.mem_cons_self ..)]
      exact h.1
    · rw [hprev b (List.mem_cons_self ..)]
      exact h.2
  | cons y l ih =>
    refine ⟨⟨?_, ?_⟩, ih h.2 ?_ ?_⟩
    · rw [hnext a (List.mem_cons_self ..)]
      exact h.1.1
    · rw [hprev y (List.mem_cons_self ..)]
      exact h.1.2
    · exact fun z hz => hnext z (List.mem_cons_of_mem _ hz)
    · exact fun z hz => hprev z (List.mem_cons_of_mem _ hz)

/-- The record in front of the end of a path is on the path. -/
theorem Path.prev_mem (h : Path next prev a l b) : prev b ∈ a :: l := by
  induction l generalizing a with
  | nil =>
    rw [h.2]
    exact List.mem_cons_self ..
  | cons y l ih => exact List.mem_cons_of_mem _ (ih h.2)

/-- The links lead from every record on the path to one on it, or to its end. -/
theorem Path.next_mem (h : Path next prev a l b) (hx : x ∈ a :: l) : next x ∈ l ++ [b] := by
  induction l generalizing a with
  | nil =>
    obtain rfl := List.mem_singleton.mp hx
    rw [h.1]
    exact List.mem_singleton_self _
  | cons y l ih =>
    rcases List.mem_cons.mp hx with rfl | hx
    · rw [h.1.1]
      exact List.mem_cons_self ..
    · exact List.mem_cons_of_mem _ (ih h.2 hx)

theorem Path.prev_mem_of_mem (h : Path next prev a l b) (hx : x ∈ l ++ [b]) :
    prev x ∈ a :: l := by
  induction l generalizing a with
  | nil =>
    obtain rfl := List.mem_singleton.mp hx
    rw [h.2]
    exact List.mem_cons_self ..
  | cons y l ih =>
    rcases List.mem_cons.mp hx with rfl | hx
    · rw [h.1.2]
      exact List.mem_cons_self ..
    · exact List.mem_cons_of_mem _ (ih h.2 hx)

/-- The two links of each record undo each other. -/
theorem Path.prev_next (h : Path next prev a l b) (hx : x ∈ a :: l) : prev (next x) = x := by
  induction l generalizing a with
  | nil =>
    obtain rfl := List.mem_singleton.mp hx
    rw [h.1, h.2]
  | cons y l ih =>
    rcases List.mem_cons.mp hx with rfl | hx
    · rw [h.1.1, h.1.2]
    · exact ih h.2 hx

theorem Path.next_prev (h : Path next prev a l b) (hx : x ∈ l ++ [b]) : next (prev x) = x := by
  induction l generalizing a with
  | nil =>
    obtain rfl := List.mem_singleton.mp hx
    rw [h.2, h.1]
  | cons y l ih =>
    rcases List.mem_cons.mp hx with rfl | hx
    · rw [h.1.2, h.1.1]
    · exact ih h.2 hx

/-- Following the forward links leads through the path, to its end. -/
theorem Path.iterate (h : Path next prev a l b) :
    List.iterate next a (l.length + 1) = a :: l ∧ next^[l.length + 1] a = b := by
  induction l generalizing a with
  | nil => exact ⟨rfl, h.1⟩
  | cons y l ih =>
    obtain ⟨⟨hnext, -⟩, hrest⟩ := h
    obtain ⟨hlist, hend⟩ := ih hrest
    constructor
    · rw [List.length_cons, List.iterate, hnext, hlist]
    · rw [List.length_cons, Function.iterate_succ_apply, hnext]
      exact hend

/-- The links determine the path. -/
theorem Path.unique (h₁ : Path next prev a l₁ b) (h₂ : Path next prev a l₂ b) (hb₁ : b ∉ l₁)
    (hb₂ : b ∉ l₂) : l₁ = l₂ := by
  induction l₁ generalizing a l₂ with
  | nil =>
    cases l₂ with
    | nil => rfl
    | cons y l₂ =>
      obtain rfl : b = y := h₁.1.symm.trans h₂.1.1
      exact absurd (List.mem_cons_self ..) hb₂
  | cons x l₁ ih =>
    cases l₂ with
    | nil =>
      obtain rfl : b = x := h₂.1.symm.trans h₁.1.1
      exact absurd (List.mem_cons_self ..) hb₁
    | cons y l₂ =>
      obtain rfl : x = y := h₁.1.1.symm.trans h₂.1.1
      rw [ih h₁.2 h₂.2 (fun hm => hb₁ (List.mem_cons_of_mem _ hm))
        fun hm => hb₂ (List.mem_cons_of_mem _ hm)]

/-- A circle may start anywhere. -/
theorem Circle.rotate (h : Circle next prev (l₁ ++ x :: l₂)) :
    Circle next prev (x :: l₂ ++ l₁) := by
  cases l₁ with
  | nil =>
    rw [List.append_nil]
    exact h
  | cons a l₁ =>
    obtain ⟨hnodup, hpath⟩ := h
    obtain ⟨hfront, hback⟩ := path_append.mp hpath
    have hnodup : ((a :: l₁) ++ (x :: l₂)).Nodup := hnodup
    exact ⟨List.nodup_append_comm.mp hnodup, path_append.mpr ⟨hback, hfront⟩⟩

/-- No node comes twice on a circle: each has one successor. -/
theorem Circle.nodup (h : Circle next prev l) : l.Nodup := by
  cases l with
  | nil => exact List.nodup_nil
  | cons a l => exact h.1

/-- The links determine the circle, from where it starts. -/
theorem Circle.unique (h₁ : Circle next prev (a :: l₁)) (h₂ : Circle next prev (a :: l₂)) :
    l₁ = l₂ :=
  h₁.2.unique h₂.2 (List.nodup_cons.mp h₁.1).1 (List.nodup_cons.mp h₂.1).1

/-- The two links of each record undo each other. -/
theorem Circle.inverse (h : Circle next prev l) (hx : x ∈ l) :
    prev (next x) = x ∧ next (prev x) = x := by
  cases l with
  | nil => cases hx
  | cons a l =>
    have hend : x ∈ l ++ [a] := by simpa [or_comm] using hx
    exact ⟨h.2.prev_next hx, h.2.next_prev hend⟩

/-- Following the links leads to records of the circle only. -/
theorem Circle.iterate_mem (h : Circle next prev l) (hx : x ∈ l) (n : Nat) : next^[n] x ∈ l := by
  induction n generalizing x with
  | zero => exact hx
  | succ n ih =>
    rw [Function.iterate_succ_apply]
    cases l with
    | nil => cases hx
    | cons a l =>
      refine ih ?_
      simpa [or_comm] using h.2.next_mem hx

/-- A circle depends on the links of its own records only. -/
theorem Circle.congr (h : Circle next prev l) (hnext : ∀ y ∈ l, next' y = next y)
    (hprev : ∀ y ∈ l, prev' y = prev y) : Circle next' prev' l := by
  cases l with
  | nil => trivial
  | cons a l =>
    refine ⟨h.1, h.2.congr hnext fun y hy => hprev y ?_⟩
    rcases List.mem_append.mp hy with hy | hy
    · exact List.mem_cons_of_mem _ hy
    · obtain rfl := List.mem_singleton.mp hy
      exact List.mem_cons_self ..

/-- The neighbours of a record of the circle are records of the circle. -/
theorem Circle.neighbours (h : Circle next prev l) (hx : x ∈ l) : next x ∈ l ∧ prev x ∈ l := by
  cases l with
  | nil => cases hx
  | cons a l =>
    have hend : ∀ y, y ∈ l ++ [a] ↔ y ∈ a :: l := fun y => by simp [or_comm]
    exact ⟨(hend _).mp (h.2.next_mem hx), h.2.prev_mem_of_mem ((hend x).mpr hx)⟩

end

/-! ## Changing a circle -/

section

variable [DecidableEq α] {next prev : α → α} {a b t x : α} {l : List α}

/-- The links of other records may change. -/
theorem Circle.update (h : Circle next prev l) (ht : t ∉ l) (a b : α) :
    Circle (Function.update next t a) (Function.update prev t b) l := by
  have hne : ∀ y ∈ l, y ≠ t := by
    rintro y hy rfl
    exact ht hy
  exact h.congr (fun y hy => Function.update_of_ne (hne y hy) ..)
    fun y hy => Function.update_of_ne (hne y hy) ..

/-- A circle of one record. -/
theorem Circle.single (next prev : α → α) (t : α) :
    Circle (Function.update next t t) (Function.update prev t t) [t] :=
  ⟨List.nodup_singleton t, Function.update_self .., Function.update_self ..⟩

/-- A new record behind `a`, from which the circle then starts. -/
theorem Circle.insert (h : Circle next prev (a :: l)) (ht : t ∉ a :: l) :
    Circle (Function.update (Function.update next t (next a)) a t)
      (Function.update (Function.update prev t a) (next a) t) (t :: (l ++ [a])) := by
  obtain ⟨hnodup, hpath⟩ := h
  have hta : t ≠ a := fun heq => ht (heq ▸ List.mem_cons_self ..)
  have hnodup' : (t :: (l ++ [a])).Nodup := by
    rw [List.nodup_cons]
    refine ⟨fun hmem => ht ?_, ?_⟩
    · simpa [or_comm] using hmem
    · exact List.nodup_append_comm.mp hnodup
  refine ⟨hnodup', ?_⟩
  cases l with
  | nil =>
    -- the circle had one record
    obtain ⟨hnext, -⟩ := hpath
    rw [hnext]
    refine ⟨⟨?_, ?_⟩, ?_, ?_⟩
    · rw [Function.update_of_ne hta, Function.update_self]
    · rw [Function.update_self]
    · rw [Function.update_self]
    · rw [Function.update_of_ne hta, Function.update_self]
  | cons x l =>
    obtain ⟨⟨hnext, hprev⟩, hrest⟩ := hpath
    rw [hnext]
    have htx : t ≠ x := fun heq => ht (heq ▸ List.mem_cons_of_mem _ (List.mem_cons_self ..))
    have hax : a ≠ x := fun heq => (List.nodup_cons.mp hnodup).1 (heq ▸ List.mem_cons_self ..)
    refine ⟨⟨?_, ?_⟩, path_append.mpr ⟨hrest.congr ?_ ?_, ?_, ?_⟩⟩
    · rw [Function.update_of_ne hta, Function.update_self]
    · rw [Function.update_self]
    · intro y hy
      have hya : y ≠ a := fun heq => (List.nodup_cons.mp hnodup).1 (heq ▸ hy)
      have hyt : y ≠ t := fun heq => ht (heq ▸ List.mem_cons_of_mem _ hy)
      rw [Function.update_of_ne hya, Function.update_of_ne hyt]
    · intro y hy
      have hmem : y ∈ a :: l := by simpa [or_comm] using hy
      have hyx : y ≠ x := by
        rintro rfl
        rcases List.mem_cons.mp hmem with rfl | hyl
        · exact hax rfl
        · exact (List.nodup_cons.mp (List.nodup_cons.mp hnodup).2).1 hyl
      have hyt : y ≠ t := by
        rintro rfl
        rcases List.mem_cons.mp hmem with rfl | hyl
        · exact hta rfl
        · exact ht (List.mem_cons_of_mem _ (List.mem_cons_of_mem _ hyl))
      rw [Function.update_of_ne hyx, Function.update_of_ne hyt]
    · rw [Function.update_self]
    · rw [Function.update_of_ne htx, Function.update_self]

/-- The end of a path is changed. -/
theorem Path.retarget (h : Path next prev a l t) (hnodup : (a :: l).Nodup) (hb : b ∉ l) :
    Path (Function.update next (prev t) b) (Function.update prev b (prev t)) a l b := by
  induction l generalizing a with
  | nil =>
    obtain ⟨-, hprev⟩ := h
    rw [hprev]
    exact ⟨Function.update_self .., Function.update_self ..⟩
  | cons c l ih =>
    obtain ⟨⟨hnext, hprev⟩, hrest⟩ := h
    obtain ⟨ha, hnodup⟩ := List.nodup_cons.mp hnodup
    have hne : a ≠ prev t := fun heq => ha (heq ▸ hrest.prev_mem)
    have hcb : c ≠ b := fun heq => hb (heq ▸ List.mem_cons_self ..)
    refine ⟨⟨?_, ?_⟩, ih hrest hnodup fun hmem => hb (List.mem_cons_of_mem _ hmem)⟩
    · rw [Function.update_of_ne hne, hnext]
    · rw [Function.update_of_ne hcb, hprev]

/-- The record the circle starts from is taken out. -/
theorem Circle.remove (h : Circle next prev (t :: x :: l)) :
    Circle (Function.update next (prev t) x) (Function.update prev x (prev t)) (x :: l) := by
  obtain ⟨hnodup, -, hrest⟩ := h
  have hnodup := (List.nodup_cons.mp hnodup).2
  exact ⟨hnodup, hrest.retarget hnodup (List.nodup_cons.mp hnodup).1⟩

end

end SystemsProjects

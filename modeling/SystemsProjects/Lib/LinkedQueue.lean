import Mathlib.Data.List.Nodup
import Mathlib.Logic.Function.Iterate

/-!
# Intrusive queues

A queue of records that are linked through a field of their own: the queue itself holds
the addresses of its first and its last record, and `next` gives the field of each
record. The null address is 0.

- `Queue.add`, `Queue.remove`: the operations, on the pair and on the link field.
- `Queue.Holds q next l`: the queue holds the records `l`, in this order. The list is
  determined by the pointers (`Holds.unique`), adding appends to it (`Holds.add`),
  removing takes its head and clears the head's link (`Holds.remove_cons`), and a queue
  depends on the links of its own records only (`Holds.congr`). The links lead through the list
  (`Holds.iterate`).
- `Lists P l`: the list has the elements with the property `P`, each once. What a queue
  is for is said this way, and kept while elements gain and lose the property.

A record that is in no queue may hold anything in its field: `Holds` speaks of the records on
the list only. This is what lets several queues share one field, as long as no record is in two
of them.
-/

namespace SystemsProjects

universe u v

/-- The first and the last record of a queue, both null when it is empty. -/
structure Queue (α : Type u) where
  head : α
  tail : α
  deriving DecidableEq

namespace Queue

variable {α : Type u} [Zero α] [DecidableEq α]

/-- The empty queue. -/
def empty : Queue α := ⟨0, 0⟩

/-- Put `a` at the end. -/
def add (q : Queue α) (next : α → α) (a : α) : Queue α × (α → α) :=
  let next := Function.update next a 0
  if q.head ≠ 0 then (⟨q.head, a⟩, Function.update next q.tail a)
  else (⟨a, a⟩, next)

/-- Take the first record off, or null from an empty queue. -/
def remove (q : Queue α) (next : α → α) : α × Queue α × (α → α) :=
  if q.head = 0 then (0, q, next)
  else
    let a := q.head
    let q := if next a = 0 then ⟨0, 0⟩ else ⟨next a, q.tail⟩
    (a, q, Function.update next a 0)

/-! ## What a queue holds -/

/-- Each record of the list links to the one behind it, the last one to null. -/
def Links (next : α → α) : List α → Prop
  | [] => True
  | [a] => next a = 0
  | a :: b :: l => next a = b ∧ Links next (b :: l)

/-- The queue holds the records `l`, in this order. -/
structure Holds (q : Queue α) (next : α → α) (l : List α) : Prop where
  head_eq : q.head = l.head?.getD 0
  tail_eq : q.tail = l.getLast?.getD 0
  links : Links next l
  nodup : l.Nodup
  ne_zero : ∀ a ∈ l, a ≠ 0

variable {q : Queue α} {next next' : α → α} {l : List α} {a : α}

omit [DecidableEq α] in
/-- A chain depends on the links of its elements only. -/
theorem Links.congr (h : Links next l) (heq : ∀ b ∈ l, next' b = next b) : Links next' l := by
  induction l with
  | nil => trivial
  | cons a l ih =>
    cases l with
    | nil =>
      show next' a = 0
      rw [heq a (List.mem_cons_self ..)]
      exact h
    | cons b l =>
      refine ⟨?_, ih h.2 fun c hc => heq c (List.mem_cons_of_mem a hc)⟩
      rw [heq a (List.mem_cons_self ..)]
      exact h.1

omit [DecidableEq α] in
/-- A queue depends on the links of its own records only. -/
theorem Holds.congr (h : q.Holds next l) (heq : ∀ b ∈ l, next' b = next b) :
    q.Holds next' l := { h with links := h.links.congr heq }

omit [DecidableEq α] in
theorem holds_empty (next : α → α) : (empty : Queue α).Holds next [] where
  head_eq := rfl
  tail_eq := rfl
  links := trivial
  nodup := List.nodup_nil
  ne_zero _ ha := absurd ha List.not_mem_nil

omit [DecidableEq α] in
theorem Holds.head_eq_zero_iff (h : q.Holds next l) : q.head = 0 ↔ l = [] := by
  cases l with
  | nil => exact iff_of_true h.head_eq rfl
  | cons a l =>
    have hhead : q.head = a := h.head_eq
    rw [hhead]
    exact iff_of_false (h.ne_zero a (List.mem_cons_self ..)) (List.cons_ne_nil a l)

omit [DecidableEq α] in
/-- Following the links from one record on leads to one list only. -/
theorem Links.unique {l₁ l₂ : List α} (h₁ : Links next (a :: l₁)) (h₂ : Links next (a :: l₂))
    (hne₁ : ∀ b ∈ l₁, b ≠ 0) (hne₂ : ∀ b ∈ l₂, b ≠ 0) : l₁ = l₂ := by
  induction l₁ generalizing a l₂ with
  | nil =>
    cases l₂ with
    | nil => rfl
    | cons b l₂ =>
      have hzero : next a = 0 := h₁
      exact absurd (h₂.1.symm.trans hzero) (hne₂ b (List.mem_cons_self ..))
  | cons b l₁ ih =>
    cases l₂ with
    | nil =>
      have hzero : next a = 0 := h₂
      exact absurd (h₁.1.symm.trans hzero) (hne₁ b (List.mem_cons_self ..))
    | cons c l₂ =>
      obtain rfl : b = c := h₁.1.symm.trans h₂.1
      rw [ih h₁.2 h₂.2 (fun d hd => hne₁ d (List.mem_cons_of_mem b hd))
        (fun d hd => hne₂ d (List.mem_cons_of_mem b hd))]

omit [DecidableEq α] in
/-- The pointers determine what the queue holds. -/
theorem Holds.unique {l₁ l₂ : List α} (h₁ : q.Holds next l₁) (h₂ : q.Holds next l₂) :
    l₁ = l₂ := by
  cases l₁ with
  | nil => exact (h₂.head_eq_zero_iff.mp (h₁.head_eq_zero_iff.mpr rfl)).symm
  | cons a l₁ =>
    cases l₂ with
    | nil => exact h₁.head_eq_zero_iff.mp (h₂.head_eq_zero_iff.mpr rfl)
    | cons b l₂ =>
      have ha : q.head = a := h₁.head_eq
      have hb : q.head = b := h₂.head_eq
      obtain rfl : a = b := ha.symm.trans hb
      rw [h₁.links.unique h₂.links (fun c hc => h₁.ne_zero c (List.mem_cons_of_mem a hc))
        (fun c hc => h₂.ne_zero c (List.mem_cons_of_mem a hc))]

omit [DecidableEq α] in
theorem Holds.tail_eq_zero_iff (h : q.Holds next l) : q.tail = 0 ↔ l = [] := by
  rcases List.eq_nil_or_concat l with rfl | ⟨l', b, rfl⟩
  · exact iff_of_true h.tail_eq rfl
  · rw [List.concat_eq_append] at h ⊢
    have htail : q.tail = b := by
      rw [h.tail_eq]
      simp
    rw [htail]
    refine iff_of_false (h.ne_zero b ?_) (List.append_ne_nil_of_right_ne_nil l' (by simp))
    exact List.mem_append_right l' (List.mem_singleton.mpr rfl)

omit [DecidableEq α] in
theorem Links.last {b : α} (h : Links next (l ++ [b])) : next b = 0 := by
  induction l with
  | nil => exact h
  | cons a l ih =>
    cases l with
    | nil => exact ih h.2
    | cons c l => exact ih h.2

omit [DecidableEq α] in
/-- The tail is the last record, and nothing is linked behind it. -/
theorem Holds.last (h : q.Holds next l) (hne : l ≠ []) :
    l.getLast? = some q.tail ∧ next q.tail = 0 := by
  rcases List.eq_nil_or_concat l with rfl | ⟨l', b, rfl⟩
  · exact absurd rfl hne
  · rw [List.concat_eq_append] at h ⊢
    have htail : q.tail = b := by
      rw [h.tail_eq]
      simp
    rw [htail]
    exact ⟨List.getLast?_concat, h.links.last⟩

omit [DecidableEq α] in
/-- Following the links leads through the records. -/
theorem Links.iterate (h : Links next (a :: l)) :
    List.iterate next a (l.length + 1) = a :: l ∧ next^[l.length + 1] a = 0 := by
  induction l generalizing a with
  | nil => exact ⟨rfl, h⟩
  | cons b l ih =>
    obtain ⟨hlist, hend⟩ := ih h.2
    have hnext : next a = b := h.1
    constructor
    · rw [List.length_cons, List.iterate, hnext, hlist]
    · rw [List.length_cons, Function.iterate_succ_apply, hnext]
      exact hend

omit [DecidableEq α] in
/-- From the head on, the links lead through what the queue holds, and then to null. -/
theorem Holds.iterate (h : q.Holds next l) :
    List.iterate next q.head l.length = l ∧ next^[l.length] q.head = 0 := by
  cases l with
  | nil => exact ⟨rfl, h.head_eq⟩
  | cons a l =>
    have hhead : q.head = a := h.head_eq
    rw [hhead]
    exact h.links.iterate

/-! ## Adding -/

/-- A record linked behind the last one. -/
theorem Links.concat {b : α} (h : Links next (l ++ [b])) (hnodup : (l ++ [b]).Nodup)
    (ha : a ∉ l ++ [b]) :
    Links (Function.update (Function.update next a 0) b a) (l ++ [b] ++ [a]) := by
  induction l with
  | nil =>
    have hab : a ≠ b := fun heq => ha (List.mem_singleton.mpr heq)
    refine ⟨Function.update_self .., ?_⟩
    show Function.update (Function.update next a 0) b a a = 0
    rw [Function.update_of_ne hab, Function.update_self]
  | cons c l ih =>
    have hca : c ≠ a := fun heq => ha (heq ▸ List.mem_cons_self ..)
    have hcb : c ≠ b := by
      rintro rfl
      exact (List.nodup_cons.mp hnodup).1 (List.mem_append_right l (List.mem_singleton.mpr rfl))
    have hrest : Links next (l ++ [b]) := by
      cases l with
      | nil => exact h.2
      | cons d l => exact h.2
    have hlinks := ih hrest (List.nodup_cons.mp hnodup).2
      fun hmem => ha (List.mem_cons_of_mem c hmem)
    have hnext : Function.update (Function.update next a 0) b a c = next c := by
      rw [Function.update_of_ne hcb, Function.update_of_ne hca]
    cases l with
    | nil => exact ⟨hnext.trans h.1, hlinks⟩
    | cons d l => exact ⟨hnext.trans h.1, hlinks⟩

/-- Adding appends to what the queue holds. -/
theorem Holds.add (h : q.Holds next l) (ha : a ∉ l) (hne : a ≠ 0) :
    (q.add next a).1.Holds (q.add next a).2 (l ++ [a]) := by
  have hnodup : (l ++ [a]).Nodup := by
    rw [List.nodup_append]
    refine ⟨h.nodup, List.nodup_singleton a, fun b hb c hc => ?_⟩
    rw [List.mem_singleton] at hc
    rintro rfl
    exact ha (hc ▸ hb)
  have hne' : ∀ b ∈ l ++ [a], b ≠ 0 := by
    intro b hb
    rcases List.mem_append.mp hb with hb | hb
    · exact h.ne_zero b hb
    · rw [List.mem_singleton] at hb
      rwa [hb]
  unfold Queue.add
  -- the first element, or one behind the last
  rcases List.eq_nil_or_concat l with rfl | ⟨l', b, rfl⟩
  · rw [if_neg (not_not.mpr (h.head_eq_zero_iff.mpr rfl))]
    exact ⟨rfl, rfl, Function.update_self .., hnodup, hne'⟩
  · rw [List.concat_eq_append] at h ha hnodup hne' ⊢
    have htail : q.tail = b := by
      rw [h.tail_eq]
      simp
    have hhead : q.head ≠ 0 := by
      rw [ne_eq, h.head_eq_zero_iff]
      simp
    rw [if_pos hhead, htail]
    refine ⟨?_, ?_, h.links.concat h.nodup ha, hnodup, hne'⟩
    · rw [h.head_eq]
      cases l' with
      | nil => rfl
      | cons c l' => rfl
    · simp

/-- The links of other records stay. -/
theorem Holds.add_frame {b : α} (h : q.Holds next l) (hb : b ∉ l) (hba : b ≠ a) :
    (q.add next a).2 b = next b := by
  unfold Queue.add
  split
  · next hhead =>
    have htail : b ≠ q.tail := by
      rcases List.eq_nil_or_concat l with rfl | ⟨l', c, rfl⟩
      · exact absurd (h.head_eq_zero_iff.mpr rfl) hhead
      · rw [List.concat_eq_append] at h hb
        rintro rfl
        have hlast : q.tail = c := by
          rw [h.tail_eq]
          simp
        exact hb (List.mem_append_right _ (List.mem_singleton.mpr hlast))
    show Function.update (Function.update next a 0) q.tail a b = next b
    rw [Function.update_of_ne htail, Function.update_of_ne hba]
  · exact Function.update_of_ne hba ..

/-! ## Removing -/

/-- Nothing is removed from an empty queue. -/
theorem Holds.remove_nil (h : q.Holds next []) : q.remove next = (0, q, next) :=
  if_pos h.head_eq

/-- Removing takes the first record and clears its link. -/
theorem Holds.remove_cons (h : q.Holds next (a :: l)) :
    ∃ q', q.remove next = (a, q', Function.update next a 0) ∧
      q'.Holds (Function.update next a 0) l := by
  have hhead : q.head = a := h.head_eq
  have ha : a ≠ 0 := h.ne_zero a (List.mem_cons_self ..)
  have hout : a ∉ l := (List.nodup_cons.mp h.nodup).1
  have hframe : ∀ b ∈ l, Function.update next a 0 b = next b := by
    intro b hb
    refine Function.update_of_ne ?_ _ _
    rintro rfl
    exact hout hb
  unfold Queue.remove
  rw [if_neg (hhead ▸ ha), hhead]
  refine ⟨_, rfl, ?_⟩
  cases l with
  | nil =>
    have hzero : next a = 0 := h.links
    rw [if_pos hzero]
    exact holds_empty _
  | cons b l =>
    have hnext : next a = b := h.links.1
    have hb : b ≠ 0 := h.ne_zero b (List.mem_cons_of_mem a (List.mem_cons_self ..))
    rw [if_neg (hnext ▸ hb), hnext]
    refine ⟨rfl, ?_, h.links.2.congr hframe, (List.nodup_cons.mp h.nodup).2,
      fun c hc => h.ne_zero c (List.mem_cons_of_mem a hc)⟩
    rw [h.tail_eq, List.getLast?_cons_cons]

end Queue

/-! ## What a list is a list of -/

/-- The list has exactly the elements with the property, each once. -/
structure Lists {α : Type u} (P : α → Prop) (l : List α) : Prop where
  nodup : l.Nodup
  mem_iff : ∀ a, a ∈ l ↔ P a

namespace Lists

variable {α : Type u} {P Q : α → Prop} {l : List α} {a : α}

/-- The property that is listed may be replaced by an equivalent one. -/
theorem congr (h : Lists P l) (hiff : ∀ b, Q b ↔ P b) : Lists Q l where
  nodup := h.nodup
  mem_iff b := (h.mem_iff b).trans (hiff b).symm

/-- One more element has the property. -/
theorem concat (h : Lists P l) (ha : ¬ P a) (hiff : ∀ b, Q b ↔ P b ∨ b = a) :
    Lists Q (l ++ [a]) where
  nodup := by
    refine List.nodup_append.mpr ⟨h.nodup, List.nodup_singleton a, fun b hb c hc => ?_⟩
    rw [List.mem_singleton] at hc
    rintro rfl
    exact ha (hc ▸ (h.mem_iff b).mp hb)
  mem_iff b := by rw [List.mem_append, List.mem_singleton, h.mem_iff, hiff]

/-- The first element has lost the property. -/
theorem tail (h : Lists P (a :: l)) (hiff : ∀ b, Q b ↔ P b ∧ b ≠ a) : Lists Q l where
  nodup := (List.nodup_cons.mp h.nodup).2
  mem_iff b := by
    rw [hiff, ← h.mem_iff, List.mem_cons]
    constructor
    · intro hb
      refine ⟨.inr hb, ?_⟩
      rintro rfl
      exact (List.nodup_cons.mp h.nodup).1 hb
    · rintro ⟨rfl | hb, hne⟩
      · exact absurd rfl hne
      · exact hb

/-- One list of a family changes. -/
theorem update {ι : Type v} [DecidableEq ι] {R : ι → α → Prop} {f : ι → List α} {i : ι}
    (hi : Lists (R i) l) (hother : ∀ j, j ≠ i → Lists (R j) (f j)) (j : ι) :
    Lists (R j) (Function.update f i l j) := by
  by_cases hj : j = i
  · subst hj
    rwa [Function.update_self]
  · rw [Function.update_of_ne hj]
    exact hother j hj

theorem head (h : Lists P (a :: l)) : P a := (h.mem_iff a).mp (List.mem_cons_self ..)

theorem count_eq_one [DecidableEq α] (h : Lists P l) : l.count a = 1 ↔ P a := by
  rw [← h.mem_iff]
  constructor
  · intro hcount
    exact List.count_pos_iff.mp (hcount ▸ Nat.one_pos)
  · exact List.count_eq_one_of_mem h.nodup

theorem count_eq_zero [DecidableEq α] (h : Lists P l) (ha : ¬ P a) : l.count a = 0 :=
  List.count_eq_zero.mpr fun hmem => ha ((h.mem_iff a).mp hmem)

end Lists

end SystemsProjects

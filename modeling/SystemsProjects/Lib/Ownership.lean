import Mathlib.Algebra.BigOperators.Group.Finset.Basic
import Mathlib.Data.Set.Card

/-!
# Owners of resources

Resources of which some are in use, each by one owner. Handing out free ones to an owner
(`Ownership.grant`) and taking back all that an owner has (`Ownership.revoke`) keep this. What is
in use can be counted owner by owner (`Ownership.ncard_used`).

Owners and resources are of any type, and what is granted is any set of resources that are free.
Cardinalities are used where something is counted, and only there.
-/

namespace SystemsProjects

universe u v

variable {α : Type u} {ω : Type v}

/-- The resources in use are those that somebody owns, and none has two owners. -/
structure Ownership (used : Set α) (owns : ω → α → Prop) : Prop where
  used_iff : ∀ a, a ∈ used ↔ ∃ o, owns o a
  once : ∀ a o o', owns o a → owns o' a → o = o'

namespace Ownership

variable {used used' : Set α} {owns owns' : ω → α → Prop} {o : ω} {a : α}

theorem mem_used (h : Ownership used owns) (ha : owns o a) : a ∈ used :=
  (h.used_iff a).mpr ⟨o, ha⟩

/-- Free resources are handed out to `o`. -/
theorem grant (h : Ownership used owns) (o : ω) (granted : Set α)
    (hfree : ∀ a ∈ granted, a ∉ used)
    (hused : ∀ a, a ∈ used' ↔ a ∈ used ∨ a ∈ granted)
    (howns : ∀ p a, owns' p a ↔ owns p a ∨ p = o ∧ a ∈ granted) : Ownership used' owns' where
  used_iff a := by
    rw [hused, h.used_iff]
    constructor
    · rintro (⟨p, hp⟩ | ha)
      · exact ⟨p, (howns p a).mpr (.inl hp)⟩
      · exact ⟨o, (howns o a).mpr (.inr ⟨rfl, ha⟩)⟩
    · rintro ⟨p, hp⟩
      rcases (howns p a).mp hp with hp | ⟨-, ha⟩
      · exact .inl ⟨p, hp⟩
      · exact .inr ha
  once a p q hp hq := by
    rcases (howns p a).mp hp with hp | ⟨rfl, ha⟩
    · rcases (howns q a).mp hq with hq | ⟨-, ha⟩
      · exact h.once a p q hp hq
      · exact absurd (h.mem_used hp) (hfree a ha)
    · rcases (howns q a).mp hq with hq | ⟨rfl, -⟩
      · exact absurd (h.mem_used hq) (hfree a ha)
      · rfl

/-- All that `o` has is taken back. -/
theorem revoke (h : Ownership used owns) (hused : ∀ a, a ∈ used' ↔ a ∈ used ∧ ¬ owns o a)
    (howns : ∀ p a, owns' p a ↔ owns p a ∧ p ≠ o) : Ownership used' owns' where
  used_iff a := by
    rw [hused, h.used_iff]
    constructor
    · rintro ⟨⟨p, hp⟩, hnot⟩
      refine ⟨p, (howns p a).mpr ⟨hp, ?_⟩⟩
      rintro rfl
      exact hnot hp
    · rintro ⟨p, hp⟩
      obtain ⟨hp, hne⟩ := (howns p a).mp hp
      exact ⟨⟨p, hp⟩, fun ho => hne (h.once a p o hp ho)⟩
  once a p q hp hq := h.once a p q ((howns p a).mp hp).1 ((howns q a).mp hq).1

/-- What is in use is what the owners have, one after the other. -/
theorem ncard_used (h : Ownership used owns) (hfinite : used.Finite) (owners : Finset ω)
    (hall : ∀ o a, owns o a → o ∈ owners) : used.ncard = ∑ o ∈ owners, {a | owns o a}.ncard := by
  classical
  have hpart : ∀ o, {a | owns o a}.Finite := fun o => hfinite.subset fun a ha => h.mem_used ha
  have hcard : ∀ o ∈ owners, {a | owns o a}.ncard = (hpart o).toFinset.card :=
    fun o _ => Set.ncard_eq_toFinset_card _ (hpart o)
  rw [Set.ncard_eq_toFinset_card _ hfinite, Finset.sum_congr rfl hcard, ← Finset.card_biUnion]
  · congr 1
    ext a
    simp only [Set.Finite.mem_toFinset, Finset.mem_biUnion, Set.mem_ofPred_eq, h.used_iff]
    exact ⟨fun ⟨o, ho⟩ => ⟨o, hall o a ho, ho⟩, fun ⟨o, _, ho⟩ => ⟨o, ho⟩⟩
  · intro o _ o' _ hne
    rw [Function.onFun, Finset.disjoint_left]
    intro a ha ha'
    rw [Set.Finite.mem_toFinset] at ha ha'
    exact hne (h.once a o o' ha ha')

end Ownership

end SystemsProjects

import Mathlib.Algebra.BigOperators.Group.Finset.Piecewise
import Mathlib.Algebra.GroupWithZero.Nat
import Mathlib.Data.List.Nodup
import Mathlib.Data.List.Perm.Subperm
import Mathlib.Order.Interval.Finset.Nat

/-!
# Tilings

Lists of address intervals that tile a set: every address of the set lies in exactly one
interval of the list, the other addresses in none. Said by counting, so that cutting an
interval in two and joining two that touch (`Tiles.cut_iff`) are each other's inverse and
need nothing else to be known. The lengths of the intervals add up to the size of the set
(`Tiles.sum_lengths`).

Counting needs no order and no disjointness as a hypothesis: that an address lies in one
interval of the list is that the count there is one. A list that tiles a set is `Tiles`; its
intervals are then disjoint, and whatever is inside the set lies in one of them.
-/

namespace SystemsProjects

universe u

/-- The addresses from `start` up to `stop`. -/
structure Span where
  start : Nat
  stop : Nat

namespace Span

/-- The address lies in the interval. -/
def Has (s : Span) (a : Nat) : Prop := s.start ≤ a ∧ a < s.stop

instance (s : Span) (a : Nat) : Decidable (s.Has a) := inferInstanceAs (Decidable (_ ∧ _))

/-- Two intervals without a common address. -/
def Apart (s t : Span) : Prop := ∀ a, s.Has a → ¬ t.Has a

theorem Apart.symm {s t : Span} (h : s.Apart t) : t.Apart s := fun a ht hs => h a hs ht

/-- Intervals without a common address lie one behind the other. -/
theorem Apart.le_or_le {s t : Span} (h : s.Apart t) (hs : s.start < s.stop)
    (ht : t.start < t.stop) : s.stop ≤ t.start ∨ t.stop ≤ s.start := by
  by_contra hover
  rw [not_or, Nat.not_le, Nat.not_le] at hover
  exact h (max s.start t.start) ⟨Nat.le_max_left .., by omega⟩ ⟨Nat.le_max_right .., by omega⟩

end Span

/-- Every address of `S` is in one interval of the list, every other in none. -/
def Tiles (l : List Span) (S : Nat → Prop) [DecidablePred S] : Prop :=
  ∀ a, l.countP (fun s => s.Has a) = if S a then 1 else 0

namespace Tiles

variable {S T : Nat → Prop} [DecidablePred S] [DecidablePred T] {l l₁ l₂ : List Span}

/-- The set that is tiled may be described in another way. -/
theorem congr (h : Tiles l S) (hiff : ∀ a, T a ↔ S a) : Tiles l T := by
  intro a
  rw [h a, if_congr (hiff a) rfl rfl]

theorem nil (h : ∀ a, ¬ S a) : Tiles [] S := fun a => (if_neg (h a)).symm

/-- Two tilings side by side. -/
theorem append (h₁ : Tiles l₁ S) (h₂ : Tiles l₂ T) (hapart : ∀ a, S a → ¬ T a) :
    Tiles (l₁ ++ l₂) (fun a => S a ∨ T a) := by
  intro a
  rw [List.countP_append, h₁ a, h₂ a]
  have ha := hapart a
  by_cases hS : S a
  · rw [if_pos hS, if_neg (ha hS), if_pos (.inl hS)]
  · by_cases hT : T a
    · rw [if_neg hS, if_pos hT, if_pos (.inr hT)]
    · rw [if_neg hS, if_neg hT, if_neg (not_or.mpr ⟨hS, hT⟩)]

theorem singleton (s : Span) : Tiles [s] s.Has := by
  intro a
  rw [List.countP_singleton]
  simp

/-- Cutting an interval in two, or joining two that touch. -/
theorem cut_iff {a b c : Nat} (hab : a ≤ b) (hbc : b ≤ c) :
    Tiles (l₁ ++ ⟨a, b⟩ :: ⟨b, c⟩ :: l₂) S ↔ Tiles (l₁ ++ ⟨a, c⟩ :: l₂) S := by
  refine forall_congr' fun x => ?_
  have hcount : (if (⟨a, b⟩ : Span).Has x then 1 else 0) + (if (⟨b, c⟩ : Span).Has x then 1 else 0)
      = if (⟨a, c⟩ : Span).Has x then 1 else 0 := by
    by_cases hx : x < b
    · have hright : ¬ (⟨b, c⟩ : Span).Has x := fun h => absurd hx (Nat.not_lt.mpr h.1)
      have hleft : (⟨a, b⟩ : Span).Has x ↔ (⟨a, c⟩ : Span).Has x :=
        ⟨fun h => ⟨h.1, Nat.lt_of_lt_of_le hx hbc⟩, fun h => ⟨h.1, hx⟩⟩
      rw [if_neg hright, Nat.add_zero, if_congr hleft rfl rfl]
    · have hleft : ¬ (⟨a, b⟩ : Span).Has x := fun h => hx h.2
      have hright : (⟨b, c⟩ : Span).Has x ↔ (⟨a, c⟩ : Span).Has x :=
        ⟨fun h => ⟨Nat.le_trans hab h.1, h.2⟩, fun h => ⟨Nat.le_of_not_lt hx, h.2⟩⟩
      rw [if_neg hleft, Nat.zero_add, if_congr hright rfl rfl]
  simp only [List.countP_append, List.countP_cons, decide_eq_true_eq]
  omega

section

variable {β : Type u} {f : β → Span} {m : List β} {b c : β}

/-- An interval of the tiling lies inside the set. -/
theorem covered (h : Tiles (m.map f) S) (hb : b ∈ m) {a : Nat} (ha : (f b).Has a) : S a := by
  by_contra hS
  have hzero := h a
  rw [if_neg hS, List.countP_map, List.countP_eq_zero] at hzero
  exact hzero b hb (decide_eq_true ha)

/-- Different members have intervals without a common address. -/
theorem apart (h : Tiles (m.map f) S) (hb : b ∈ m) (hc : c ∈ m) (hne : b ≠ c) :
    (f b).Apart (f c) := by
  intro a hba hca
  have hsub : [b, c].Subperm m := by
    refine List.subperm_of_subset ?_ ?_
    · simp [hne]
    · intro x hx
      rcases List.mem_pair.mp hx with rfl | rfl
      · exact hb
      · exact hc
  have hle := hsub.countP_le (fun x => decide ((f x).Has a))
  have hcount := h a
  rw [List.countP_map] at hcount
  have htwo : [b, c].countP (fun x => decide ((f x).Has a)) = 2 := by
    simp [hba, hca]
  rw [htwo] at hle
  have hone : (if S a then 1 else 0) ≤ 1 := by split <;> omega
  have heq : m.countP (fun x => decide ((f x).Has a)) = if S a then 1 else 0 := hcount
  omega

/-- Members with nonempty intervals occur once. -/
theorem nodup [DecidableEq β] (h : Tiles (m.map f) S) (hne : ∀ b ∈ m, (f b).start < (f b).stop) :
    m.Nodup := by
  rw [List.nodup_iff_count_le_one]
  intro b
  by_cases hb : b ∈ m
  · have hcount := h (f b).start
    rw [List.countP_map] at hcount
    have hle : m.count b ≤ m.countP (fun x => decide ((f x).Has (f b).start)) := by
      refine List.countP_mono_left fun x _ hx => ?_
      rw [beq_iff_eq.mp hx]
      exact decide_eq_true ⟨Nat.le_refl _, hne b hb⟩
    have hone : (if S (f b).start then 1 else 0) ≤ 1 := by split <;> omega
    have heq : m.countP (fun x => decide ((f x).Has (f b).start)) =
      if S (f b).start then 1 else 0 := hcount
    omega
  · rw [List.count_eq_zero.mpr hb]
    omega

end

/-! ## Lengths -/

/-- Counted address by address, the intervals add up to their lengths. -/
theorem sum_countP {n : Nat} (hstop : ∀ s ∈ l, s.stop ≤ n) :
    ∑ a ∈ Finset.range n, l.countP (fun s => s.Has a) =
      (l.map fun s => s.stop - s.start).sum := by
  induction l with
  | nil => simp
  | cons s l ih =>
    rw [List.forall_mem_cons] at hstop
    have hone : (Finset.range n).filter (fun a => s.Has a) = Finset.Ico s.start s.stop := by
      ext a
      rw [Finset.mem_filter, Finset.mem_range, Finset.mem_Ico]
      exact ⟨fun h => h.2, fun h => ⟨Nat.lt_of_lt_of_le h.2 hstop.1, h⟩⟩
    simp only [List.countP_cons, decide_eq_true_eq, Finset.sum_add_distrib, List.map_cons,
      List.sum_cons, ih hstop.2]
    rw [← Finset.card_filter, hone, Nat.card_Ico, Nat.add_comm]

/-- The intervals have as many addresses as the set, which ends below `n`. -/
theorem sum_lengths {n : Nat} (h : Tiles l S) (hstop : ∀ s ∈ l, s.stop ≤ n) :
    (l.map fun s => s.stop - s.start).sum = ((Finset.range n).filter S).card := by
  rw [← sum_countP hstop, Finset.card_filter]
  exact Finset.sum_congr rfl fun a _ => h a

end Tiles

/-- Frames of `k` addresses each, all below `n`. -/
theorem card_frames {n k : Nat} {F : Finset Nat} (hk : 0 < k) (hend : ∀ f ∈ F, k * f + k ≤ n) :
    ((Finset.range n).filter fun a => a / k ∈ F).card = k * F.card := by
  have hframe : ∀ f ∈ F, (((Finset.range n).filter fun a => a / k ∈ F).filter
      fun a => a / k = f).card = k := by
    intro f hf
    have hinterval : ((Finset.range n).filter fun a => a / k ∈ F).filter (fun a => a / k = f) =
        Finset.Ico (k * f) (k * f + k) := by
      ext a
      simp only [Finset.mem_filter, Finset.mem_range, Finset.mem_Ico]
      constructor
      · rintro ⟨-, rfl⟩
        exact ⟨Nat.mul_div_le a k, Nat.lt_mul_div_succ a hk⟩
      · rintro ⟨hle, hlt⟩
        have hdiv : a / k = f := Nat.div_eq_of_lt_le (Nat.mul_comm k f ▸ hle)
          (by rw [Nat.succ_mul, Nat.mul_comm f]; exact hlt)
        exact ⟨⟨Nat.lt_of_lt_of_le hlt (hend f hf), hdiv ▸ hf⟩, hdiv⟩
    rw [hinterval, Nat.card_Ico, Nat.add_sub_cancel_left]
  have hmem : ∀ a ∈ (Finset.range n).filter fun a => a / k ∈ F, a / k ∈ F :=
    fun a ha => (Finset.mem_filter.mp ha).2
  rw [Finset.card_eq_sum_card_fiberwise hmem, Finset.sum_const_nat hframe, Nat.mul_comm]

/-- Intervals that tile frames have the size of the frames. -/
theorem Tiles.sum_frames {l : List Span} {n k : Nat} {F : Finset Nat}
    (h : Tiles l fun a => a / k ∈ F) (hk : 0 < k) (hstop : ∀ s ∈ l, s.stop ≤ n)
    (hend : ∀ f ∈ F, k * f + k ≤ n) : (l.map fun s => s.stop - s.start).sum = k * F.card := by
  rw [h.sum_lengths hstop, card_frames hk hend]

end SystemsProjects

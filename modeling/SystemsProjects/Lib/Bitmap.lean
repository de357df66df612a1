import Mathlib.Logic.Function.Basic
import Mathlib.Tactic.NormNum

/-!
# Sets packed into bytes

A set of numbers kept as one bit each, eight to a byte: number `f` is bit `f % 8` of
byte `f / 8`. Testing, setting and clearing the bit with a mask are the operations of the
set (`and_mask_ne_zero`, `bitAt_or_mask`, `bitAt_and_not_mask`).

Each operation touches one byte. Two numbers with the same byte and the same bit are the same
number (`eq_of_byte_bit`), and so nothing else changes.
-/

namespace SystemsProjects

/-- The bit that stands for `f`. -/
def bitAt (b : Nat → BitVec 8) (f : Nat) : Bool := (b (f / 8)).getLsbD (f % 8)

/-- The mask with the bit for `f` alone. -/
def bitMask (f : Nat) : BitVec 8 := 1 <<< (f % 8)

theorem bitMask_eq_twoPow (f : Nat) : bitMask f = BitVec.twoPow 8 (f % 8) := by
  rw [BitVec.twoPow, bitMask]
  rfl

theorem getLsbD_bitMask (f k : Nat) : (bitMask f).getLsbD k = decide (k = f % 8) := by
  have hlt : f % 8 < 8 := Nat.mod_lt f (by decide)
  rw [bitMask_eq_twoPow, BitVec.getLsbD_twoPow]
  by_cases hk : k = f % 8
  · simp [hk, hlt]
  · have hk' : ¬ f % 8 = k := fun h => hk h.symm
    simp [hk, hk']

/-- Testing a bit. -/
theorem and_mask_ne_zero (b : Nat → BitVec 8) (f : Nat) :
    b (f / 8) &&& bitMask f ≠ 0 ↔ bitAt b f = true := by
  have hlt : f % 8 < 8 := Nat.mod_lt f (by decide)
  rw [bitMask_eq_twoPow, BitVec.and_twoPow, bitAt]
  by_cases hbit : (b (f / 8)).getLsbD (f % 8) = true
  · rw [if_pos hbit]
    refine iff_of_true (fun hzero => ?_) hbit
    have hget := congrArg (fun x : BitVec 8 => x.getLsbD (f % 8)) hzero
    simp [hlt] at hget
  · rw [if_neg hbit]
    exact iff_of_false (fun h => h rfl) hbit

/-- Numbers that share their byte and their bit are equal. -/
theorem eq_of_byte_bit {f g : Nat} (hbyte : f / 8 = g / 8) (hbit : f % 8 = g % 8) : f = g := by
  have hf := Nat.div_add_mod f 8
  have hg := Nat.div_add_mod g 8
  omega

/-- Setting a bit adds its number. -/
theorem bitAt_or_mask (b : Nat → BitVec 8) (f g : Nat) :
    bitAt (Function.update b (f / 8) (b (f / 8) ||| bitMask f)) g
      = (decide (g = f) || bitAt b g) := by
  unfold bitAt
  by_cases hbyte : g / 8 = f / 8
  · rw [hbyte, Function.update_self, BitVec.getLsbD_or, getLsbD_bitMask, Bool.or_comm]
    congr 1
    by_cases hbit : g % 8 = f % 8
    · rw [eq_of_byte_bit hbyte hbit]
      simp
    · have hne : g ≠ f := by
        rintro rfl
        exact hbit rfl
      simp [hbit, hne]
  · have hne : g ≠ f := by
      rintro rfl
      exact hbyte rfl
    rw [Function.update_of_ne hbyte]
    simp [hne]

/-- Clearing a bit removes its number. -/
theorem bitAt_and_not_mask (b : Nat → BitVec 8) (f g : Nat) :
    bitAt (Function.update b (f / 8) (b (f / 8) &&& ~~~(bitMask f))) g
      = (!decide (g = f) && bitAt b g) := by
  unfold bitAt
  have hlt : g % 8 < 8 := Nat.mod_lt g (by decide)
  by_cases hbyte : g / 8 = f / 8
  · rw [hbyte, Function.update_self, BitVec.getLsbD_and, BitVec.getLsbD_not,
      getLsbD_bitMask, Bool.and_comm]
    congr 1
    by_cases hbit : g % 8 = f % 8
    · rw [eq_of_byte_bit hbyte hbit]
      simp
    · have hne : g ≠ f := by
        rintro rfl
        exact hbit rfl
      simp [hbit, hne, hlt]
  · have hne : g ≠ f := by
      rintro rfl
      exact hbyte rfl
    rw [Function.update_of_ne hbyte]
    simp [hne]

end SystemsProjects

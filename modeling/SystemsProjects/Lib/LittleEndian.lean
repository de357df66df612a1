import SystemsProjects.Lib.ByteMemory

/-!
# Numbers in byte memory

Numbers of any width, lowest byte first, in an address space of any size that wraps around.

- `load_store`: a number that was stored is read back.
- `load_store_of_apart`: storing leaves the numbers in other bytes alone.
-/

namespace SystemsProjects

namespace LittleEndian

section

variable (space : Nat)

/-- The number in `n` bytes at `a`. -/
def load (m : ByteMemory) : Nat → Nat → Nat
  | 0, _ => 0
  | n + 1, a => (m (a % space)).toNat + 256 * load m n (a + 1)

/-- Store the lowest `n` bytes of `v` at `a`. -/
def store (m : ByteMemory) : Nat → Nat → Nat → ByteMemory
  | 0, _, _ => m
  | n + 1, a, v => Function.update (store m n (a + 1) (v / 256)) (a % space) (BitVec.ofNat 8 v)

end

variable {space : Nat} {m m' : ByteMemory} {n k a b v : Nat}

/-- A number depends on its bytes only. -/
theorem load_congr (h : ∀ i, i < n → m' ((a + i) % space) = m ((a + i) % space)) :
    load space m' n a = load space m n a := by
  induction n generalizing a with
  | zero => rfl
  | succ n ih =>
    have hfirst := h 0 (Nat.succ_pos n)
    rw [Nat.add_zero] at hfirst
    rw [load, load, hfirst, ih fun i hi => ?_]
    have hnext := h (i + 1) (Nat.succ_lt_succ hi)
    rwa [← Nat.add_assoc, Nat.add_right_comm] at hnext

/-- Storing changes the bytes of the number only. -/
theorem store_of_ne (h : ∀ i, i < n → b ≠ (a + i) % space) : store space m n a v b = m b := by
  induction n generalizing a v with
  | zero => rfl
  | succ n ih =>
    have hfirst := h 0 (Nat.succ_pos n)
    rw [Nat.add_zero] at hfirst
    rw [store, Function.update_of_ne hfirst, ih fun i hi => ?_]
    have hnext := h (i + 1) (Nat.succ_lt_succ hi)
    rwa [← Nat.add_assoc, Nat.add_right_comm] at hnext

/-- A number that was stored is read back. -/
theorem load_store (hfit : a + n ≤ space) (hv : v < 256 ^ n) :
    load space (store space m n a v) n a = v := by
  induction n generalizing a v with
  | zero => exact (Nat.lt_one_iff.mp hv).symm
  | succ n ih =>
    have hrest : v / 256 < 256 ^ n := by
      rw [Nat.pow_succ'] at hv
      exact Nat.div_lt_of_lt_mul hv
    rw [load]
    -- the bytes behind the first are those of the rest
    have hload : load space (store space m (n + 1) a v) n (a + 1) = v / 256 := by
      refine Eq.trans (load_congr fun i hi => ?_) (ih (by omega) hrest)
      rw [store]
      refine Function.update_of_ne ?_ ..
      rw [Nat.mod_eq_of_lt (by omega), Nat.mod_eq_of_lt (by omega)]
      omega
    rw [hload, store, Function.update_self, BitVec.toNat_ofNat]
    omega

/-- Storing leaves the numbers in other bytes alone. -/
theorem load_store_of_apart (ha : a + n ≤ space) (hb : b + k ≤ space)
    (hapart : a + n ≤ b ∨ b + k ≤ a) :
    load space (store space m n a v) k b = load space m k b := by
  refine load_congr fun i hi => store_of_ne fun j hj => ?_
  rw [Nat.mod_eq_of_lt (by omega), Nat.mod_eq_of_lt (by omega)]
  omega

end LittleEndian

end SystemsProjects

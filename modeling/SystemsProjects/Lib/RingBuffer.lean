import Mathlib.Logic.Function.Basic

/-!
# Ring buffers

An array used round and round, with the next place to write, the next place to read and the
number of elements.

- `Ring.stored n r`: the elements, oldest first, for an array of size `n`.
- `Ring.WellFormed`: the writing place is `len` places behind the reading place.
- `stored_write` and `stored_eq_cons`: writing appends, reading takes the first.

Indices are numbers below the size, and going one further wraps around. The list of stored
elements is defined by the reading place and the length, so that neither operation has to speak
of wrapping.
-/

namespace SystemsProjects

universe u

/-- A buffer in an array. -/
structure Ring (α : Type u) where
  data : Nat → α
  head : Nat
  tail : Nat
  len : Nat

namespace Ring

variable {α : Type u} {n : Nat} {r : Ring α}

/-- The elements from the reading place on. -/
def stored (n : Nat) (r : Ring α) : List α :=
  (List.range r.len).map fun i => r.data ((r.tail + i) % n)

/-- The places are in the array and as far apart as there are elements. -/
structure WellFormed (n : Nat) (r : Ring α) : Prop where
  tail_lt : r.tail < n
  len_le : r.len ≤ n
  head_eq : r.head = (r.tail + r.len) % n

/-- Write at the writing place. -/
def write (n : Nat) (r : Ring α) (a : α) : Ring α where
  data := Function.update r.data r.head a
  head := (r.head + 1) % n
  tail := r.tail
  len := r.len + 1

/-- Give up the oldest element. -/
def advance (n : Nat) (r : Ring α) : Ring α where
  data := r.data
  head := r.head
  tail := (r.tail + 1) % n
  len := r.len - 1

/-- As many elements are stored as the ring counts. -/
@[simp] theorem length_stored (n : Nat) (r : Ring α) : (r.stored n).length = r.len := by
  rw [stored, List.length_map, List.length_range]

/-- Fewer than `n` places apart are different places. -/
theorem mod_ne {t i j n : Nat} (hij : i < j) (hj : j < n) : (t + i) % n ≠ (t + j) % n := by
  intro heq
  have hzero : (t + j - (t + i)) % n = 0 := Nat.sub_mod_eq_zero_of_mod_eq heq.symm
  have hsub : t + j - (t + i) = j - i := by omega
  rw [hsub, Nat.mod_eq_of_lt (by omega)] at hzero
  omega

/-- A write into a ring with room keeps it well formed. -/
theorem WellFormed.write (h : r.WellFormed n) (hlen : r.len < n) (a : α) :
    (r.write n a).WellFormed n := by
  constructor
  · exact h.tail_lt
  · exact hlen
  · show (r.head + 1) % n = (r.tail + (r.len + 1)) % n
    rw [h.head_eq, Nat.mod_add_mod, Nat.add_assoc]

theorem WellFormed.advance (h : r.WellFormed n) (hlen : 0 < r.len) :
    (r.advance n).WellFormed n := by
  constructor
  · exact Nat.mod_lt _ (Nat.zero_lt_of_lt h.tail_lt)
  · exact Nat.le_trans (Nat.sub_le ..) h.len_le
  · show r.head = ((r.tail + 1) % n + (r.len - 1)) % n
    have hsum : r.tail + 1 + (r.len - 1) = r.tail + r.len := by omega
    rw [Nat.mod_add_mod, hsum, h.head_eq]

/-- Writing appends. -/
theorem stored_write (h : r.WellFormed n) (hlen : r.len < n) (a : α) :
    (r.write n a).stored n = r.stored n ++ [a] := by
  have hhead : (r.tail + r.len) % n = r.head := h.head_eq.symm
  show (List.range (r.len + 1)).map
    (fun i => Function.update r.data r.head a ((r.tail + i) % n)) = _
  rw [List.range_succ, List.map_append]
  congr 1
  · refine List.map_congr_left fun i hi => ?_
    -- the places of the older elements are not written
    rw [← hhead, Function.update_of_ne (mod_ne (List.mem_range.mp hi) hlen)]
  · simp [hhead]

/-- Reading takes the first. -/
theorem stored_eq_cons (h : r.WellFormed n) (hlen : 0 < r.len) :
    r.stored n = r.data r.tail :: (r.advance n).stored n := by
  have hsucc : r.len = r.len - 1 + 1 := by omega
  show (List.range r.len).map (fun i => r.data ((r.tail + i) % n)) =
    r.data r.tail :: (List.range (r.len - 1)).map fun i => r.data (((r.tail + 1) % n + i) % n)
  rw [hsucc, List.range_succ_eq_map, List.map_cons, List.map_map]
  congr 1
  · rw [Nat.add_zero, Nat.mod_eq_of_lt h.tail_lt]
  · refine List.map_congr_left fun i _ => ?_
    show r.data ((r.tail + (i + 1)) % n) = r.data (((r.tail + 1) % n + i) % n)
    rw [Nat.mod_add_mod, Nat.add_right_comm, Nat.add_assoc]

end Ring

end SystemsProjects

import Mathlib.Data.List.Nodup

/-!
# First in, first out

A queue from which some elements have been served: `served ++ left = waiting ++ added` says that
nobody was let in ahead of those who were waiting, and nobody of them was taken out.

- `served_in_order`: those who were waiting are served in their order.
- `not_served_before`: who waits at position `k` is not among the first `k` served.
- `waits_on`: until it has been served, each waits `served.length` places further in front.

No structure of a queue is assumed: the two lists in front and the two lists behind are all
there is, and the consequences are about positions in a concatenation.
-/

namespace SystemsProjects

namespace Fifo

universe u

variable {α : Type u} {served left waiting added : List α} {k j : Nat} {t : α}

/-- Who waits in front is served at the same place in the order of service. -/
theorem served_in_order (h : served ++ left = waiting ++ added) (hj : j < waiting.length)
    (hserved : j < served.length) : served[j]? = waiting[j]? := by
  calc served[j]? = (served ++ left)[j]? := (List.getElem?_append_left hserved).symm
    _ = (waiting ++ added)[j]? := by rw [h]
    _ = waiting[j]? := List.getElem?_append_left hj

/-- Who is not served yet has moved up by the number of those served. -/
theorem waits_on (h : served ++ left = waiting ++ added) (hk : waiting[k]? = some t)
    (hserved : served.length ≤ k) : left[k - served.length]? = some t := by
  have hlt : k < waiting.length := (List.getElem?_eq_some_iff.mp hk).1
  calc left[k - served.length]? = (served ++ left)[k]? :=
        (List.getElem?_append_right hserved).symm
    _ = (waiting ++ added)[k]? := by rw [h]
    _ = waiting[k]? := List.getElem?_append_left hlt
    _ = some t := hk

/-- Nobody is served ahead of those who wait in front of it. -/
theorem not_served_before (h : served ++ left = waiting ++ added) (hnodup : waiting.Nodup)
    (hk : waiting[k]? = some t) : t ∉ served.take k := by
  intro hmem
  obtain ⟨j, hj, hget⟩ := List.mem_iff_getElem.mp hmem
  obtain ⟨hlt, hkt⟩ := List.getElem?_eq_some_iff.mp hk
  rw [List.length_take] at hj
  have hjs : j < served.length := by omega
  have hwaiting := served_in_order (j := j) h (by omega) hjs
  rw [List.getElem_take] at hget
  rw [List.getElem?_eq_getElem hjs, hget, List.getElem?_eq_getElem (by omega)] at hwaiting
  -- the same element at two positions
  have heq : j = k :=
    hnodup.getElem_inj_iff.mp ((Option.some.inj hwaiting).symm.trans hkt.symm)
  omega

end Fifo

end SystemsProjects

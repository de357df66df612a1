import SystemsProjects.MyMalloc.Allocator

/-!
# Where the blocks of `my_malloc` lie

Nothing rounds a size up: the next header begins where the bytes of the last block end.

- `Stacked a l b`: the blocks `l` lie one directly behind the other, from `a` up to `b`.
- `Stacked.dvd_iff`: the pointers are multiples of a divisor of the header size exactly when all
  sizes but the last are.
- `allAligned_iff`: in which states that a sequence of calls can reach all headers and pointers
  are aligned.

`Allocator` says that the blocks do not overlap; this module only follows the addresses. Each
block begins where the last one ends, so which pointers are aligned is decided by the sizes that
were asked for, one after the other, and the last of them does not count.
-/

namespace SystemsProjects

namespace MyMalloc

open TransitionSystem

/-- The blocks lie one directly behind the other: a header, then as many bytes as were asked
for. -/
def Stacked : Nat → List (Nat × Nat) → Nat → Prop
  | a, [], b => b = a
  | a, x :: rest, b => x.1 = a + blockSize ∧ Stacked (x.1 + x.2) rest b

section Stacked

variable {a b k m : Nat} {l : List (Nat × Nat)}

/-- One more block at the top. -/
theorem Stacked.concat (h : Stacked a l b) :
    Stacked a (l ++ [(b + blockSize, m)]) (b + blockSize + m) := by
  induction l generalizing a with
  | nil =>
    obtain rfl : b = a := h
    exact ⟨rfl, rfl⟩
  | cons x rest ih => exact ⟨h.1, ih h.2⟩

/-- Every pointer is a multiple of `k` exactly when every size is that has a block behind it. -/
theorem Stacked.dvd_iff (h : Stacked a l b) (hk : k ∣ blockSize) (ha : k ∣ a) :
    (∀ x ∈ l, k ∣ x.1) ↔ ∀ x ∈ l.dropLast, k ∣ x.2 := by
  induction l generalizing a with
  | nil => exact iff_of_true (List.forall_mem_nil _) (List.forall_mem_nil _)
  | cons x rest ih =>
    obtain ⟨hptr, hrest⟩ := h
    have hx : k ∣ x.1 := by
      rw [hptr]
      exact Nat.dvd_add ha hk
    cases rest with
    | nil => exact iff_of_true (List.forall_mem_singleton.mpr hx) (List.forall_mem_nil _)
    | cons y rest =>
      rw [List.dropLast_cons_cons]
      refine List.forall_mem_cons.trans (Iff.trans ?_ List.forall_mem_cons.symm)
      -- the next header begins where the bytes of `x` end
      by_cases hsize : k ∣ x.2
      · rw [ih hrest (Nat.dvd_add hx hsize)]
        exact and_congr (iff_of_true hx hsize) Iff.rfl
      · refine iff_of_false (fun hall => hsize ?_) fun hall => hsize hall.1
        have hy : k ∣ x.1 + x.2 + blockSize := by
          rw [← hrest.1]
          exact hall.2 y (List.mem_cons_self ..)
        exact (Nat.dvd_add_right hx).mp ((Nat.dvd_add_left hk).mp hy)

end Stacked

/-! ## Runs -/

/-- What a step does to the blocks: nothing, or one more is put at the break. -/
theorem MallocInv.extends {s s' : MallocState} {a : MallocAction} (hinv : MallocInv s)
    (hfits : Fits s a) (hstep : MallocStep s a s') :
    (s'.returned = s.returned ∧ s'.arena.brk = s.arena.brk) ∨
      ∃ m, s'.returned = s.returned ++ [(s.arena.brk + blockSize, m)] ∧
        s'.arena.brk = s.arena.brk + blockSize + m := by
  cases hstep with
  | @malloc size grants n ptr h hcall =>
    -- `sbrk` fails and nothing is returned, or there is a block at the old break
    rcases myMalloc_cases hfits with hnull | ⟨hfit, hblock⟩
    · rw [hnull] at hcall
      obtain ⟨rfl, rfl⟩ := Prod.mk.inj (Option.some.inj hcall)
      have hnone : (if 0 = 0 then s.returned else s.returned ++ [(0, size.toNat)]) = s.returned :=
        if_pos rfl
      exact .inl ⟨hnone, rfl⟩
    · rw [hblock] at hcall
      obtain ⟨h', hlink, heq⟩ := Option.map_eq_some_iff.mp hcall
      obtain ⟨rfl, rfl⟩ := Prod.mk.inj heq
      have hne : s.arena.brk + blockSize ≠ 0 := Nat.ne_of_gt (Nat.add_pos_left hinv.brk_pos _)
      have hone : (if s.arena.brk + blockSize = 0 then s.returned
          else s.returned ++ [(s.arena.brk + blockSize, size.toNat)]) =
          s.returned ++ [(s.arena.brk + blockSize, size.toNat)] := if_neg hne
      exact .inr ⟨size.toNat, hone, (hinv.link hfit hlink).2⟩
  | free => exact .inl ⟨rfl, (myFree_head_brk ..).2⟩
  | store => exact .inl ⟨rfl, rfl⟩

/-- Calls that ask for what is left of the heap at most, from a break that is a multiple of 16. -/
def alignedSystem : TransitionSystem MallocState MallocAction where
  Initial s := MallocStart s ∧ 16 ∣ s.arena.brk
  Step s a s' := Fits s a ∧ MallocStep s a s'

/-- The pointers that were returned, and the headers in front of them, are multiples of 8. -/
def AllAligned (s : MallocState) : Prop :=
  ∀ x ∈ s.returned, 8 ∣ x.1 ∧ 8 ∣ x.1 - blockSize

/-- The blocks are stacked, from a multiple of 16 up to the break. -/
theorem stacked_reachable {s : MallocState} (hreach : alignedSystem.Reachable s) :
    MallocInv s ∧ ∃ a, 16 ∣ a ∧ Stacked a s.returned s.arena.brk := by
  refine hreach.invariant (P := fun s => MallocInv s ∧ ∃ a, 16 ∣ a ∧
    Stacked a s.returned s.arena.brk) ?_ ?_
  · rintro s ⟨hstart, hbrk⟩
    refine ⟨hstart.inv, s.arena.brk, hbrk, ?_⟩
    rw [hstart.returned_eq]
    rfl
  · rintro s a s' - ⟨hinv, b, hb, hstacked⟩ ⟨hfits, hstep⟩
    refine ⟨(hinv.step hfits hstep).1, b, hb, ?_⟩
    rcases hinv.extends hfits hstep with ⟨hreturned, hbrk⟩ | ⟨m, hreturned, hbrk⟩
    · rw [hreturned, hbrk]
      exact hstacked
    · rw [hreturned, hbrk]
      exact hstacked.concat

/-- **When all blocks are aligned.** In every state that calls can reach from a break that is a
multiple of 16, all headers and pointers are multiples of 8 exactly when the sizes of all
blocks but the last are. -/
theorem allAligned_iff {s : MallocState} (hreach : alignedSystem.Reachable s) :
    AllAligned s ↔ ∀ x ∈ s.returned.dropLast, 8 ∣ x.2 := by
  obtain ⟨hinv, a, ha, hstacked⟩ := stacked_reachable hreach
  have hblock : 8 ∣ blockSize := by decide
  rw [← hstacked.dvd_iff hblock (Nat.dvd_trans (by decide) ha)]
  -- a header is 24 bytes in front of its pointer
  refine forall₂_congr fun x hx => and_iff_left_of_imp fun h => ?_
  have hle := (hinv.inside x hx).1
  exact (Nat.dvd_sub_iff_left (Nat.le_of_lt hle) hblock).mpr h

/-- Two calls for an `int`, with the break at 4096. -/
theorem reachable_ints :
    ∃ s, alignedSystem.Reachable s ∧ s.returned = [(4120, 4), (4148, 4)] := by
  have hcalls : ∃ h h', myMalloc mallocZero.arena 4 true 0 = some (4120, h) ∧
      myMalloc h 4 true 1 = some (4148, h') := ⟨_, _, rfl, rfl⟩
  obtain ⟨h, h', hfirst, hsecond⟩ := hcalls
  have hfits : ∀ s, Fits s (.malloc 4 true) := fun _ _ _ => by decide
  have hzero : alignedSystem.Reachable mallocZero := .init ⟨mallocStart_mallocZero, by decide⟩
  have hone : alignedSystem.Reachable ⟨h, [(4120, 4)]⟩ := .step hzero ⟨hfits _, .malloc hfirst⟩
  have hstep : MallocStep ⟨h, [(4120, 4)]⟩ (.malloc 4 true) ⟨h', [(4120, 4), (4148, 4)]⟩ :=
    .malloc (s := ⟨h, [(4120, 4)]⟩) hsecond
  exact ⟨_, .step hone ⟨hfits _, hstep⟩, rfl⟩

theorem allAligned_ints : ∃ s, alignedSystem.Reachable s ∧
    (AllAligned s ↔ ∀ x ∈ s.returned.dropLast, 8 ∣ x.2) := by
  obtain ⟨s, hreach, -⟩ := reachable_ints
  exact ⟨s, hreach, allAligned_iff hreach⟩

/-- The second `int` is not aligned. -/
theorem not_allAligned_ints : ¬ ∀ s, alignedSystem.Reachable s → AllAligned s := by
  intro hall
  obtain ⟨s, hreach, hreturned⟩ := reachable_ints
  have haligned := (hall s hreach (4148, 4) (by rw [hreturned]; decide)).1
  exact absurd haligned (by decide)

end MyMalloc

end SystemsProjects

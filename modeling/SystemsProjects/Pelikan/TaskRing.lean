import SystemsProjects.Lib.CircularList
import SystemsProjects.Pelikan.TaskRefinement

/-!
# The circular list of tasks

`insert_task` and `remove_task_from_circular_list` on the list that starts at `last_inserted`,
and the list over the runs of the kernel.

- `Kernel.InRing k l`: the circular list is `l`.
- `InRing.insertTask`, `InRing.removeTask`: what the two functions do to it.
- `ringHolds_of_reachable`: in every run the list has exactly the tasks that are not reaped.

The circular list is not in the model, which needs no pointers: `Represents` leaves it out, and
it gets an invariant of its own here. Only birth and burial touch the links, so most steps are
covered by `SameRing`.
-/

namespace SystemsProjects

namespace Pelikan

open Model

/-- The circular list, from `last_inserted` on. -/
structure Kernel.InRing (k : Kernel) (l : List Addr) : Prop where
  circle : Circle k.next k.prev l
  last_eq : k.lastInserted = l.head?.getD 0
  ne_zero : ∀ t ∈ l, t ≠ 0

/-- The links of the circular list are the same. -/
structure SameRing (k k' : Kernel) : Prop where
  next_eq : k'.next = k.next
  prev_eq : k'.prev = k.prev
  last_eq : k'.lastInserted = k.lastInserted

namespace SameRing

variable {k k' k'' : Kernel}

theorem refl (k : Kernel) : SameRing k k := ⟨rfl, rfl, rfl⟩

theorem trans (h : SameRing k k') (h' : SameRing k' k'') : SameRing k k'' where
  next_eq := h'.next_eq.trans h.next_eq
  prev_eq := h'.prev_eq.trans h.prev_eq
  last_eq := h'.last_eq.trans h.last_eq

theorem inRing {l : List Addr} (h : SameRing k k') (hring : k.InRing l) : k'.InRing l where
  circle := by
    rw [h.next_eq, h.prev_eq]
    exact hring.circle
  last_eq := h.last_eq.trans hring.last_eq
  ne_zero := hring.ne_zero

/-! ## What leaves the list alone -/

theorem addReady (k : Kernel) (t : Addr) : SameRing k (addTaskToReadyQueue k t) := ⟨rfl, rfl, rfl⟩

theorem removeReady (k : Kernel) : SameRing k (removeTaskFromReadyQueue k).2 := ⟨rfl, rfl, rfl⟩

theorem addDead (k : Kernel) (t : Addr) : SameRing k (addTaskToDeadQueue k t) := ⟨rfl, rfl, rfl⟩

theorem removeDead (k : Kernel) : SameRing k (removeTaskFromDeadQueue k).2 := ⟨rfl, rfl, rfl⟩

theorem setState (k : Kernel) (t : Addr) (s : TaskState) : SameRing k (setState k t s) :=
  ⟨rfl, rfl, rfl⟩

theorem yield (k : Kernel) : SameRing k (yield k) := by
  unfold Pelikan.yield scheduleResume
  split
  · exact (setState ..).trans (addReady ..)
  · split
    · refine (addDead k k.currentTask).trans ?_
      dsimp only
      split
      · exact (setState ..).trans (addReady ..)
      · exact refl _
    · exact refl k

theorem dispatch (h : scheduleDispatch k = some k') : SameRing k k' := by
  unfold scheduleDispatch at h
  dsimp only at h
  split at h
  · cases h
  · obtain rfl := Option.some.inj h
    exact (removeReady k).trans ⟨rfl, rfl, rfl⟩

theorem mutexLock (k : Kernel) (lock : Addr) : SameRing k (mutexLock k lock).2 := by
  unfold Pelikan.mutexLock
  split
  · refine SameRing.trans ?_ (yield _)
    exact ⟨rfl, rfl, rfl⟩
  · exact ⟨rfl, rfl, rfl⟩

theorem mutexUnlock (k : Kernel) (lock : Addr) : SameRing k (mutexUnlock k lock).2 := by
  unfold Pelikan.mutexUnlock
  dsimp only
  split
  · exact ⟨rfl, rfl, rfl⟩
  · exact ⟨rfl, rfl, rfl⟩

theorem enterTask (k : Kernel) (t : Addr) (type : Int) : SameRing k (enterTask k t type) := by
  unfold Pelikan.enterTask
  split
  · exact ⟨rfl, rfl, rfl⟩
  · split
    · exact (setState ..).trans (addReady ..)
    · exact refl k

theorem threadExit (k : Kernel) : SameRing k (threadExit k) :=
  (setState ..).trans (yield _)

end SameRing

/-! ## What changes it -/

section

variable {k : Kernel} {l : List Addr} {t : Addr}

/-- A task that is not on the list may be cleared. -/
theorem Kernel.InRing.clearTask (h : k.InRing l) (ht : t ∉ l) : (clearTask k t).InRing l where
  circle := h.circle.update ht 0 0
  last_eq := h.last_eq
  ne_zero := h.ne_zero

/-- `insert_task` puts the task behind the one inserted last. -/
theorem Kernel.InRing.insertTask (h : k.InRing l) (ht : t ∉ l) (hne : t ≠ 0) :
    ∃ l', (insertTask k t).InRing l' ∧ ∀ u, u ∈ l' ↔ u = t ∨ u ∈ l := by
  obtain ⟨hcircle, hlast, hzero⟩ := h
  unfold Pelikan.insertTask
  cases l with
  | nil =>
    have hlast : k.lastInserted = 0 := hlast
    rw [if_neg (not_not_intro hlast)]
    refine ⟨[t], ⟨.single .., rfl, ?_⟩, by simp⟩
    intro u hu
    rw [List.mem_singleton.mp hu]
    exact hne
  | cons a l =>
    have hlast : k.lastInserted = a := hlast
    have ha : a ≠ 0 := hzero a (List.mem_cons_self ..)
    have hat : a ≠ t := fun heq => ht (heq ▸ List.mem_cons_self ..)
    rw [if_pos (hlast ▸ ha)]
    refine ⟨t :: (l ++ [a]), ⟨?_, rfl, ?_⟩, by simp [or_comm]⟩
    · have hinsert := hcircle.insert ht
      dsimp only
      rw [hlast, Function.update_of_ne hat]
      exact hinsert
    · intro u hu
      rcases List.mem_cons.mp hu with rfl | hu
      · exact hne
      · exact hzero u (by simpa [or_comm] using hu)

theorem Kernel.InRing.congr {k' : Kernel} (h : k.InRing l) (hsame : SameRing k k') : k'.InRing l :=
  hsame.inRing h

/-- `create_task` links the task once. -/
theorem Kernel.InRing.createTask (h : k.InRing l) (ht : t ∉ l) (hne : t ≠ 0)
    (base id : BitVec 32) (type : Int) :
    ∃ l', (createTask k t base id type).InRing l' ∧ ∀ u, u ∈ l' ↔ u = t ∨ u ∈ l := by
  let filled : Kernel := { Pelikan.clearTask k t with
    stackBase := Function.update (Pelikan.clearTask k t).stackBase t (base + 4096)
    id := Function.update (Pelikan.clearTask k t).id t id }
  have hfilled : filled.InRing l := (h.clearTask ht).congr ⟨rfl, rfl, rfl⟩
  obtain ⟨l', hl', hmem⟩ := (hfilled.congr (.enterTask filled t type)).insertTask ht hne
  exact ⟨l', hl'.congr ⟨rfl, rfl, rfl⟩, hmem⟩

/-- `remove_task_from_circular_list` takes the task out, and clears its links. -/
theorem Kernel.InRing.removeTask (h : k.InRing l) (ht : t ∈ l) :
    ∃ l', (removeTaskFromCircularList k t).InRing l' ∧ ∀ u, u ∈ l' ↔ u ∈ l ∧ u ≠ t := by
  obtain ⟨hcircle, hlast, hzero⟩ := h
  obtain ⟨l₁, l₂, rfl⟩ := List.append_of_mem ht
  have hnodup := hcircle.nodup
  have hrotated := hcircle.rotate
  have hmem : ∀ u, u ∈ l₁ ++ t :: l₂ ∧ u ≠ t ↔ u ∈ l₂ ++ l₁ := by
    have hnot := (List.nodup_middle.mp hnodup)
    have hnot := (List.nodup_cons.mp hnot).1
    intro u
    constructor
    · rintro ⟨hu, hne⟩
      simpa [hne, or_comm] using hu
    · intro hu
      have hu' : u ∈ l₁ ++ l₂ := by simpa [or_comm] using hu
      refine ⟨List.perm_middle.mem_iff.mpr (List.mem_cons_of_mem _ hu'), ?_⟩
      rintro rfl
      exact hnot hu'
  unfold removeTaskFromCircularList
  rcases hrest : l₂ ++ l₁ with _ | ⟨x, m⟩
  · -- the only task on the list
    rw [List.cons_append, hrest] at hrotated
    have hself : k.next t = t := hrotated.2.1
    rw [if_pos hself]
    refine ⟨[], ⟨trivial, rfl, nofun⟩, fun u => ?_⟩
    rw [hmem, hrest]
  · rw [List.cons_append, hrest] at hrotated
    have hnext : k.next t = x := hrotated.2.1.1
    have hprev : k.prev t ∈ x :: m := hrotated.2.2.prev_mem
    have htm : t ∉ x :: m := (List.nodup_cons.mp hrotated.1).1
    have hself : k.next t ≠ t := fun heq => htm (by rw [← heq, hnext]; exact List.mem_cons_self ..)
    have hne : t ≠ k.prev t := fun heq => htm (heq ▸ hprev)
    rw [if_neg hself]
    dsimp only
    rw [Function.update_of_ne hne, hnext]
    have hremoved : Circle
        (Function.update (Function.update k.next (k.prev t) x) t 0)
        (Function.update (Function.update k.prev x (k.prev t)) t 0) (x :: m) :=
      hrotated.remove.update htm 0 0
    have hne_zero : ∀ u ∈ l₂ ++ l₁, u ≠ 0 := fun u hu => hzero u ((hmem u).mpr hu).1
    cases l₁ with
    | nil =>
      -- the list then starts with the task behind it
      have hlast : k.lastInserted = t := hlast
      rw [if_pos hlast]
      refine ⟨x :: m, ⟨hremoved, rfl, ?_⟩, fun u => ?_⟩
      · rw [← hrest]
        exact hne_zero
      · rw [hmem, hrest]
    | cons a l₁ =>
      have hlast : k.lastInserted = a := hlast
      have hat : a ≠ t := by
        rintro rfl
        exact (List.nodup_cons.mp hnodup).1 (by simp)
      rw [if_neg (hlast ▸ hat)]
      rw [← hrest] at hremoved
      refine ⟨a :: l₁ ++ l₂, ⟨hremoved.rotate, hlast, ?_⟩, fun u => ?_⟩
      · intro u hu
        exact hne_zero u (by simpa [or_comm, or_left_comm, or_assoc] using hu)
      · rw [hmem]
        simp [or_comm, or_left_comm]

end

/-! ## Over runs -/

/-- The circular list has exactly the tasks that are not reaped. -/
def RingHolds (s : Sys) : Prop :=
  ∃ l, s.kernel.InRing l ∧ ∀ t, t ∈ l ↔ t ∈ s.control.unreaped

section

variable {s s' : Sys} {act : Action}

/-- A step that frees nobody and leaves the list alone. -/
theorem SameRing.ringHolds (h : SameRing s.kernel s'.kernel) (hring : RingHolds s)
    (hunreaped : s'.control.unreaped = s.control.unreaped) : RingHolds s' := by
  obtain ⟨l, hl, hmem⟩ := hring
  exact ⟨l, h.inRing hl, fun t => by rw [hmem, hunreaped]⟩

/-- A round of the reaper: it finds nobody and goes to sleep, or it takes the first task of the
dead queue, which is dead and not reaped, and unlinks it. -/
theorem reaperRound_cases (hreach : taskSystem.Reachable s)
    (hstep : s.step .reaperRound = some s') :
    (SameRing s.kernel s'.kernel ∧ s'.control = (s.control.record .slept).toScheduler) ∨
      ∃ corpse, corpse ∈ s.control.unreaped ∧ s.kernel.state corpse = .dead ∧ corpse ≠ 0 ∧
        s'.kernel = removeTaskFromCircularList (removeTaskFromDeadQueue s.kernel).2 corpse ∧
        s'.control = s.control.reap corpse := by
  unfold Sys.step at hstep
  obtain ⟨-, hs'⟩ := Option.ite_none_right_eq_some.mp hstep
  obtain ⟨a, hareach, hrep, hcontrol⟩ := taskSystem_simulated hreach
  have hinv := wellPlaced_of_reachable hareach
  cases hdead : a.dead with
  | nil =>
    left
    -- nobody is dead: the reaper blocks itself and yields
    have hround :
        reaperRound s.kernel = (0, yield (setState s.kernel s.kernel.reaperTask .blocked)) := by
      unfold reaperRound
      rw [hrep.removeDead_nil hdead]
      rfl
    rw [hround] at hs'
    change (if (0 : Addr) = 0 then _ else _) = _ at hs'
    rw [if_pos rfl] at hs'
    rw [← Option.some.inj hs']
    exact ⟨(SameRing.setState ..).trans (.yield _), rfl⟩
  | cons corpse rest =>
    right
    obtain ⟨hcorpse, hstate⟩ := (hdead ▸ hinv.queued.dead).head
    have hne := hinv.ne_zero hcorpse
    obtain ⟨k', hremove, -⟩ := hrep.removeDead_cons hdead
    -- the corpse leaves its queue and then the ring
    have hround : reaperRound s.kernel = (corpse, removeTaskFromCircularList k' corpse) := by
      unfold reaperRound
      rw [hremove]
      exact if_neg hne
    rw [hround] at hs'
    change (if corpse = 0 then _ else _) = _ at hs'
    rw [if_neg hne] at hs'
    rw [← Option.some.inj hs', hremove, hcontrol, hrep.state]
    exact ⟨corpse, hcorpse, hstate, hne, rfl, rfl⟩

theorem ringHolds_createTask (hring : RingHolds s) {task : Addr} {base id : BitVec 32}
    (hne : task ≠ 0) (hfresh : task ∉ s.control.unreaped) :
    RingHolds
      { kernel := createTask s.kernel task base id 0, control := s.control.create task } := by
  obtain ⟨l, hl, hmem⟩ := hring
  have hnot : task ∉ l := fun hin => hfresh ((hmem task).mp hin)
  obtain ⟨l', hl', hmem'⟩ := hl.createTask hnot hne base id 0
  refine ⟨l', hl', fun t => ?_⟩
  rw [hmem', hmem]
  exact Finset.mem_insert.symm

/-- `mutex_lock`, from its call or back in its loop. -/
theorem ringHolds_lockStep (hring : RingHolds s) (lock : Addr) : RingHolds (s.lockStep lock) := by
  have hsame := SameRing.mutexLock s.kernel lock
  unfold Sys.lockStep
  rcases hlock : mutexLock s.kernel lock with ⟨returned, k⟩
  rw [hlock] at hsame
  cases returned with
  | true => exact hsame.ringHolds hring rfl
  | false => exact hsame.ringHolds hring rfl

/-- Every step keeps the list. -/
theorem RingHolds.step (hreach : taskSystem.Reachable s) (hring : RingHolds s)
    (hstep : s.step act = some s') : RingHolds s' := by
  cases act with
  | createTask task base id =>
    obtain ⟨⟨-, hne, hfresh⟩, hs'⟩ := Option.ite_none_right_eq_some.mp hstep
    rw [← Option.some.inj hs']
    exact ringHolds_createTask hring hne hfresh
  | schedule =>
    obtain ⟨-, hs'⟩ := Option.ite_none_right_eq_some.mp hstep
    rw [← Option.some.inj hs']
    exact (SameRing.refl s.kernel).ringHolds hring rfl
  | dispatch =>
    obtain ⟨-, hs'⟩ := Option.ite_none_right_eq_some.mp hstep
    split at hs'
    · cases hs'
    · next k hk =>
      rw [← Option.some.inj hs']
      exact (SameRing.dispatch hk).ringHolds hring rfl
  | timer =>
    obtain ⟨-, hs'⟩ := Option.ite_none_right_eq_some.mp hstep
    rw [← Option.some.inj hs']
    exact (SameRing.yield s.kernel).ringHolds hring rfl
  | threadExit =>
    obtain ⟨-, hs'⟩ := Option.ite_none_right_eq_some.mp hstep
    rw [← Option.some.inj hs']
    exact (SameRing.threadExit s.kernel).ringHolds hring rfl
  | mutexLock lock =>
    obtain ⟨-, hs'⟩ := Option.ite_none_right_eq_some.mp hstep
    rw [← Option.some.inj hs']
    exact ringHolds_lockStep hring lock
  | resumeLock =>
    obtain ⟨-, hs'⟩ := Option.ite_none_right_eq_some.mp hstep
    split at hs'
    · cases hs'
    · rw [← Option.some.inj hs']
      exact ringHolds_lockStep hring _
  | mutexUnlock lock =>
    obtain ⟨-, hs'⟩ := Option.ite_none_right_eq_some.mp hstep
    have hsame := SameRing.mutexUnlock s.kernel lock
    rw [← Option.some.inj hs']
    exact hsame.ringHolds hring rfl
  | reaperRound =>
    -- a round without a corpse leaves the ring alone
    rcases reaperRound_cases hreach hstep with ⟨hsame, hcontrol⟩ |
      ⟨corpse, hcorpse, -, -, hkernel, hcontrol⟩
    · exact hsame.ringHolds hring (by rw [hcontrol]; rfl)
    · -- the corpse leaves the ring
      obtain ⟨l, hl, hmem⟩ := hring
      obtain ⟨l', hl', hmem'⟩ :=
        (hl.congr (.removeDead s.kernel)).removeTask ((hmem corpse).mpr hcorpse)
      refine ⟨l', hkernel ▸ hl', fun u => ?_⟩
      rw [hmem', hmem, hcontrol]
      exact and_comm.trans Finset.mem_erase.symm

theorem ringHolds_init (reaper : Addr) (hne : reaper ≠ 0) (base : BitVec 32) :
    RingHolds (Sys.init reaper base) := by
  have hempty : Kernel.zero.InRing [] := ⟨trivial, rfl, nofun⟩
  obtain ⟨l, hl, hmem⟩ := hempty.createTask List.not_mem_nil hne base 99 1
  refine ⟨l, hl, fun t => ?_⟩
  rw [hmem]
  simp [Sys.init]

/-- In every run the circular list has exactly the tasks that are not reaped. -/
theorem ringHolds_of_reachable (h : taskSystem.Reachable s) : RingHolds s := by
  refine h.invariant (P := fun s => RingHolds s) ?_ ?_
  · rintro _ ⟨reaper, base, hne, rfl⟩
    exact ringHolds_init reaper hne base
  · intro s act s' hreach hring hstep
    exact hring.step hreach hstep

end

end Pelikan

end SystemsProjects

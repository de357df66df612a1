import Mathlib.Data.Finset.Card
import SystemsProjects.Lib.Fuel
import SystemsProjects.Pelikan.TaskRing

/-!
# The list of all tasks (`scheduler_list_tasks`, `get_num_of_tasks`)

What the rest of the kernel sees of the circular list: the listing of `ps`, which goes round once
from the current task, and the count of the tasks.

- `RingRun`: births and removals in any order, with what else leaves the links alone.
- `taskRing_of_run`: the list is one cycle of exactly the live tasks, and the listing prints each
  of them once.
- `numOfTasks_iff`: the count is the number of tasks until the reaper has freed one.

From any task on the circle the listing goes round once, because following `next` from the
current task comes back to it after as many steps as there are tasks (`Path.iterate` of the
library). The count differs from the list by what the reaper frees: nothing counts down.
-/

namespace SystemsProjects

namespace Pelikan

/-- The digits that the loop of `itoa` stores, the lowest first. -/
def itoaDigits (num : Nat) : List Char :=
  let digit := Char.ofNat (48 + num % 10)
  if num / 10 = 0 then [digit] else digit :: itoaDigits (num / 10)
termination_by num
decreasing_by omega

/-- `itoa`, which turns the digits round at the end. -/
def itoa (num : BitVec 32) : String := String.ofList (itoaDigits num.toNat).reverse

/-- `state_name` -/
def stateName : TaskState → String
  | .blocked => "BLOCKED"
  | .ready => "READY"
  | .running => "RUNNING"
  | .dead => "DEAD"

/-- What `scheduler_list_tasks` prints about a task. -/
def taskLine (k : Kernel) (task : Addr) : String :=
  "id: " ++ itoa (k.id task) ++ "  state: " ++ stateName (k.state task) ++ "\n"

/-- The loop of `scheduler_list_tasks`. -/
def listTasksFrom (k : Kernel) : Nat → Addr → List String → Fueled Empty (List String)
  | 0, _, _ => .out
  | n + 1, spawnpoint, printed =>
    let printed := printed ++ [taskLine k spawnpoint]
    let spawnpoint := k.next spawnpoint
    if spawnpoint ≠ k.currentTask then listTasksFrom k n spawnpoint printed else .done printed

/-- `scheduler_list_tasks`, and the lines it prints. -/
def schedulerListTasks (k : Kernel) (n : Nat) : Fueled Empty (List String) :=
  if k.lastInserted = 0 then .done ["no tasks\n"] else listTasksFrom k n k.currentTask []

/-- `get_num_of_tasks` -/
def getNumOfTasks (k : Kernel) : Int := k.numOfTasks

/-! ## The cycle -/

/-- Births and removals in any order, with the tasks that are alive. Between them anything may
happen that leaves the links of the list alone. -/
inductive RingRun : Kernel → Finset Addr → Prop where
  | zero : RingRun .zero ∅
  | create {k : Kernel} {live : Finset Addr} {task : Addr} (h : RingRun k live) (hne : task ≠ 0)
      (hfresh : task ∉ live) (base id : BitVec 32) (type : Int) :
      RingRun (createTask k task base id type) (insert task live)
  | remove {k : Kernel} {live : Finset Addr} {task : Addr} (h : RingRun k live)
      (htask : task ∈ live) : RingRun (removeTaskFromCircularList k task) (live.erase task)
  | other {k k' : Kernel} {live : Finset Addr} (h : RingRun k live) (hsame : SameRing k k') :
      RingRun k' live

/-- The list is one cycle of exactly these tasks. -/
structure OneCycle (k : Kernel) (live : Finset Addr) : Prop where
  /-- With no task left the list is empty. -/
  empty : live = ∅ → k.lastInserted = 0
  /-- From `last_inserted` on each task is visited once, before the list comes back. -/
  nodup : live ≠ ∅ → (List.iterate k.next k.lastInserted live.card).Nodup
  visits : live ≠ ∅ → ∀ t, t ∈ List.iterate k.next k.lastInserted live.card ↔ t ∈ live
  closes : live ≠ ∅ → k.next^[live.card] k.lastInserted = k.lastInserted
  /-- Nobody else is ever reached. -/
  closed : live ≠ ∅ → ∀ n, k.next^[n] k.lastInserted ∈ live
  inverse : ∀ t ∈ live, k.prev (k.next t) = t ∧ k.next (k.prev t) = t

section

variable {k : Kernel} {live : Finset Addr} {l l' : List Addr} {t : Addr}

/-- There is one list from `last_inserted` on. -/
theorem Kernel.InRing.unique (h : k.InRing l) (h' : k.InRing l') : l = l' := by
  have hlast := h.last_eq.symm.trans h'.last_eq
  cases l with
  | nil =>
    cases l' with
    | nil => rfl
    | cons a l' => exact absurd hlast.symm (h'.ne_zero a (List.mem_cons_self ..))
  | cons a l =>
    cases l' with
    | nil => exact absurd hlast (h.ne_zero a (List.mem_cons_self ..))
    | cons b l' =>
      obtain rfl : a = b := hlast
      rw [h.circle.unique h'.circle]

/-- As many as there are tasks. -/
theorem length_eq_card (hnodup : l.Nodup) (hmem : ∀ t, t ∈ l ↔ t ∈ live) :
    l.length = live.card := by
  rw [← List.toFinset_card_of_nodup hnodup]
  congr 1
  ext t
  rw [List.mem_toFinset, hmem]

/-- What the links of the list say about the tasks on it. -/
theorem Kernel.InRing.oneCycle (h : k.InRing l) (hmem : ∀ t, t ∈ l ↔ t ∈ live) :
    OneCycle k live := by
  have hcard := length_eq_card h.circle.nodup hmem
  have hinverse : ∀ t ∈ live, k.prev (k.next t) = t ∧ k.next (k.prev t) = t :=
    fun t ht => h.circle.inverse ((hmem t).mpr ht)
  cases l with
  | nil =>
    have hempty : live = ∅ :=
      Finset.eq_empty_of_forall_notMem fun t ht => by simpa using (hmem t).mpr ht
    exact ⟨fun _ => h.last_eq, absurd hempty, absurd hempty, absurd hempty, absurd hempty, hinverse⟩
  | cons a l =>
    have hlast : k.lastInserted = a := h.last_eq
    -- following `next` from the last task gives the ring itself
    obtain ⟨hlist, hend⟩ := h.circle.2.iterate
    rw [List.length_cons] at hcard
    rw [hcard, ← hlast] at hlist hend
    constructor
    · intro hempty
      have ha := (hmem a).mp (List.mem_cons_self ..)
      rw [hempty] at ha
      exact absurd ha (Finset.notMem_empty a)
    · intro _
      rw [hlist, hlast]
      exact h.circle.nodup
    · intro _ t
      rw [hlist, hlast, hmem]
    · exact fun _ => hend
    · intro _ n
      rw [← hmem]
      exact h.circle.iterate_mem (hlast ▸ List.mem_cons_self ..) n
    · exact hinverse

/-- After any births and removals the list has the tasks that are left. -/
theorem RingRun.inRing (h : RingRun k live) : ∃ l, k.InRing l ∧ ∀ t, t ∈ l ↔ t ∈ live := by
  induction h with
  | zero => exact ⟨[], ⟨trivial, rfl, nofun⟩, by simp⟩
  | @create k live task _ hne hfresh base id type ih =>
    obtain ⟨l, hl, hmem⟩ := ih
    obtain ⟨l', hl', hmem'⟩ :=
      hl.createTask (fun hin => hfresh ((hmem task).mp hin)) hne base id type
    exact ⟨l', hl', fun t => by rw [hmem', hmem, Finset.mem_insert]⟩
  | @remove k live task _ htask ih =>
    obtain ⟨l, hl, hmem⟩ := ih
    obtain ⟨l', hl', hmem'⟩ := hl.removeTask ((hmem task).mpr htask)
    exact ⟨l', hl', fun t => by rw [hmem', hmem, Finset.mem_erase, and_comm]⟩
  | other _ hsame ih =>
    obtain ⟨l, hl, hmem⟩ := ih
    exact ⟨l, hl.congr hsame, hmem⟩

/-! ## The listing -/

/-- The loop prints the tasks on the way to the current one. -/
theorem listTasksFrom_path {a : Addr} (h : Path k.next k.prev a l k.currentTask)
    (hnot : k.currentTask ∉ l) (printed : List String) :
    listTasksFrom k (l.length + 1) a printed = .done (printed ++ (a :: l).map (taskLine k)) := by
  induction l generalizing a printed with
  | nil =>
    rw [List.length_nil, listTasksFrom]
    simp [h.1]
  | cons x l ih =>
    obtain ⟨⟨hnext, -⟩, hrest⟩ := h
    have hx : x ≠ k.currentTask := fun heq => hnot (heq ▸ List.mem_cons_self ..)
    rw [List.length_cons, listTasksFrom]
    simp only [hnext, if_pos hx]
    rw [ih hrest (fun hin => hnot (List.mem_cons_of_mem _ hin)), List.append_assoc]
    rfl

/-- From a task on the list the listing goes round once. -/
theorem Kernel.InRing.listTasks (h : k.InRing l) (hcurrent : k.currentTask ∈ l) :
    ∃ l' : List Addr, l'.Nodup ∧ (∀ t, t ∈ l' ↔ t ∈ l) ∧ l'.head? = some k.currentTask ∧
      Yields (schedulerListTasks k) (l'.map (taskLine k)) := by
  have hlast : k.lastInserted ≠ 0 := by
    rw [h.last_eq]
    cases l with
    | nil => cases hcurrent
    | cons a l => exact h.ne_zero a (List.mem_cons_self ..)
  obtain ⟨l₁, l₂, hl⟩ := List.append_of_mem hcurrent
  have hrotated : Circle k.next k.prev (k.currentTask :: (l₂ ++ l₁)) := (hl ▸ h.circle).rotate
  refine ⟨k.currentTask :: (l₂ ++ l₁), hrotated.nodup, fun t => ?_, rfl,
    (l₂ ++ l₁).length + 1, ?_⟩
  · rw [hl]
    simp [or_comm, or_left_comm]
  · rw [schedulerListTasks, if_neg hlast]
    exact listTasksFrom_path hrotated.2 (List.nodup_cons.mp hrotated.nodup).1 []

/-- After any births and removals the list is one cycle of exactly the live tasks, and from a
current task that is one of them the listing prints the line of each of them once. -/
theorem taskRing_of_run (h : RingRun k live) :
    OneCycle k live ∧ (live = ∅ → Yields (schedulerListTasks k) ["no tasks\n"]) ∧
      (k.currentTask ∈ live → ∃ l : List Addr, l.Nodup ∧ (∀ t, t ∈ l ↔ t ∈ live) ∧
        l.head? = some k.currentTask ∧ Yields (schedulerListTasks k) (l.map (taskLine k))) := by
  obtain ⟨l, hl, hmem⟩ := h.inRing
  have hcycle := hl.oneCycle hmem
  refine ⟨hcycle, fun hempty => ⟨0, if_pos (hcycle.empty hempty)⟩, fun hcurrent => ?_⟩
  obtain ⟨l', hnodup, hmem', hhead, hyields⟩ := hl.listTasks ((hmem _).mpr hcurrent)
  exact ⟨l', hnodup, fun t => (hmem' t).trans (hmem t), hhead, hyields⟩

end

/-- Task 20 was born first and died, and tasks 30 and 40 are left. -/
theorem taskRing_of_run_two : ∃ k : Kernel, k.currentTask = 30 ∧ OneCycle k {30, 40} ∧
    ∃ l : List Addr, l.Nodup ∧ (∀ t, t ∈ l ↔ t ∈ ({30, 40} : Finset Addr)) ∧
      Yields (schedulerListTasks k) (l.map (taskLine k)) := by
  have hbirths : RingRun (createTask (createTask (createTask .zero 20 0 0 0) 30 0 1 0) 40 0 2 0)
      {40, 30, 20} := ((RingRun.zero.create (by decide) (by decide) 0 0 0).create (by decide)
        (by decide) 0 1 0).create (by decide) (by decide) 0 2 0
  have hremoved : RingRun _ (({40, 30, 20} : Finset Addr).erase 20) :=
    hbirths.remove (by decide)
  have hrun : ∃ k : Kernel, k.currentTask = 30 ∧ RingRun k {30, 40} :=
    ⟨{ removeTaskFromCircularList _ 20 with currentTask := 30 }, rfl, by
      rw [show ({30, 40} : Finset Addr) = ({40, 30, 20} : Finset Addr).erase 20 by decide]
      exact hremoved.other ⟨rfl, rfl, rfl⟩⟩
  obtain ⟨k, hcurrent, hrun⟩ := hrun
  obtain ⟨hcycle, -, hlist⟩ := taskRing_of_run hrun
  obtain ⟨l, hnodup, hmem, -, hyields⟩ := hlist (by rw [hcurrent]; decide)
  exact ⟨k, hcurrent, hcycle, l, hnodup, hmem, hyields⟩

/-! ## The count -/

/-- How many tasks the reaper has freed. -/
def reapedCount : List Event → Nat
  | [] => 0
  | .reaped _ :: trace => reapedCount trace + 1
  | _ :: trace => reapedCount trace

theorem reapedCount_eq_zero {trace : List Event} :
    reapedCount trace = 0 ↔ ∀ t, .reaped t ∉ trace := by
  induction trace with
  | nil => simp [reapedCount]
  | cons e trace ih =>
    cases e with
    | reaped t =>
      refine iff_of_false (Nat.succ_ne_zero _) fun hnone => ?_
      exact hnone t (List.mem_cons_self ..)
    | _ => simpa [reapedCount] using ih

/-- The count is the births, and the tasks are the births less the deaths. -/
def CountsBirths (s : Sys) : Prop :=
  s.kernel.numOfTasks = s.control.unreaped.card + reapedCount s.control.trace

section

variable {s s' : Sys} {act : Action} {k k' : Kernel}

theorem numOfTasks_reaperStep (hstep : s.step .reaperRound = some s') :
    s'.kernel.numOfTasks = s.kernel.numOfTasks := by
  unfold Sys.step at hstep
  obtain ⟨-, hs'⟩ := Option.ite_none_right_eq_some.mp hstep
  have hnum := (SameRecords.reaperRound s.kernel).numOfTasks
  rcases hround : reaperRound s.kernel with ⟨corpse, k⟩
  rw [hround] at hs' hnum
  change (if corpse = 0 then _ else _) = _ at hs'
  by_cases hcorpse : corpse = 0
  · rw [if_pos hcorpse] at hs'
    rw [← Option.some.inj hs']
    exact hnum
  · rw [if_neg hcorpse] at hs'
    rw [← Option.some.inj hs']
    exact hnum

/-- A step that neither creates nor frees a task. -/
theorem CountsBirths.keep (h : CountsBirths s) (hnum : s'.kernel.numOfTasks = s.kernel.numOfTasks)
    (hunreaped : s'.control.unreaped = s.control.unreaped)
    (htrace : reapedCount s'.control.trace = reapedCount s.control.trace) : CountsBirths s' := by
  unfold CountsBirths
  rw [hnum, hunreaped, htrace]
  exact h

/-- `mutex_lock` creates nobody and frees nobody. -/
theorem CountsBirths.lockStep (h : CountsBirths s) (lock : Addr) :
    CountsBirths (s.lockStep lock) := by
  have hnum := (SameRecords.mutexLock s.kernel lock).numOfTasks
  unfold Sys.lockStep
  rcases hlock : mutexLock s.kernel lock with ⟨returned, k⟩
  rw [hlock] at hnum
  cases returned with
  | true => exact h.keep hnum rfl rfl
  | false => exact h.keep hnum rfl rfl

/-- Only a birth counts, and only the reaper takes a task out of the sum. -/
theorem CountsBirths.step (hreach : taskSystem.Reachable s) (h : CountsBirths s)
    (hstep : s.step act = some s') : CountsBirths s' := by
  cases act with
  | createTask task base id =>
    obtain ⟨⟨-, -, hfresh⟩, hs'⟩ := Option.ite_none_right_eq_some.mp hstep
    rw [← Option.some.inj hs']
    show (createTask s.kernel task base id 0).numOfTasks =
      (insert task s.control.unreaped).card + reapedCount (.created task :: s.control.trace)
    -- one task more, and none that was freed
    rw [createTask_numOfTasks, Finset.card_insert_of_notMem hfresh]
    unfold CountsBirths at h
    simp only [reapedCount]
    omega
  | schedule =>
    obtain ⟨-, hs'⟩ := Option.ite_none_right_eq_some.mp hstep
    rw [← Option.some.inj hs']
    exact h.keep rfl rfl rfl
  | dispatch =>
    obtain ⟨-, hs'⟩ := Option.ite_none_right_eq_some.mp hstep
    split at hs'
    · cases hs'
    · next k hk =>
      rw [← Option.some.inj hs']
      exact h.keep (SameRecords.dispatch hk).numOfTasks rfl rfl
  | timer =>
    obtain ⟨-, hs'⟩ := Option.ite_none_right_eq_some.mp hstep
    rw [← Option.some.inj hs']
    exact h.keep (SameRecords.yield _).numOfTasks rfl rfl
  | threadExit =>
    obtain ⟨-, hs'⟩ := Option.ite_none_right_eq_some.mp hstep
    rw [← Option.some.inj hs']
    exact h.keep (SameRecords.threadExit _).numOfTasks rfl rfl
  | mutexLock lock =>
    obtain ⟨-, hs'⟩ := Option.ite_none_right_eq_some.mp hstep
    rw [← Option.some.inj hs']
    exact h.lockStep lock
  | resumeLock =>
    obtain ⟨-, hs'⟩ := Option.ite_none_right_eq_some.mp hstep
    split at hs'
    · cases hs'
    · rw [← Option.some.inj hs']
      exact h.lockStep _
  | mutexUnlock lock =>
    obtain ⟨-, hs'⟩ := Option.ite_none_right_eq_some.mp hstep
    rw [← Option.some.inj hs']
    exact h.keep (SameRecords.mutexUnlock ..).numOfTasks rfl rfl
  | reaperRound =>
    -- the reaper does not change `num_of_tasks`
    have hnum := numOfTasks_reaperStep hstep
    rcases reaperRound_cases hreach hstep with ⟨-, hcontrol⟩ | ⟨corpse, hcorpse, -, -, -, hcontrol⟩
    · exact h.keep hnum (by rw [hcontrol]; rfl) (by rw [hcontrol]; rfl)
    · -- one task less, and one that was freed
      have hcard := Finset.card_erase_add_one hcorpse
      unfold CountsBirths at h ⊢
      rw [hnum, h, hcontrol]
      simp only [Control.reap_unreaped, Control.reap_trace, reapedCount]
      omega

theorem countsBirths_of_reachable (h : taskSystem.Reachable s) : CountsBirths s := by
  refine h.invariant (P := CountsBirths) ?_ ?_
  · rintro _ ⟨reaper, base, -, rfl⟩
    show (spawnReaper .zero reaper base).numOfTasks = _
    rw [spawnReaper, createTask_numOfTasks]
    rfl
  · intro s act s' hreach hcount hstep
    exact hcount.step hreach hstep

/-- The count is the length of the list when nobody was freed. -/
theorem numOfTasks_eq_length_iff (hreach : taskSystem.Reachable s) {l : List Addr}
    (hring : s.kernel.InRing l) :
    getNumOfTasks s.kernel = l.length ↔ reapedCount s.control.trace = 0 := by
  obtain ⟨l', hring', hmem⟩ := ringHolds_of_reachable hreach
  obtain rfl := hring.unique hring'
  have hcount := countsBirths_of_reachable hreach
  have hcard := length_eq_card hring.circle.nodup hmem
  unfold CountsBirths at hcount
  unfold getNumOfTasks
  omega

/-- In every state of every run the count is the number of tasks in the circular list exactly if
the reaper has freed none so far. -/
theorem numOfTasks_iff (hreach : taskSystem.Reachable s) {l : List Addr}
    (hring : s.kernel.InRing l) :
    getNumOfTasks s.kernel = l.length ↔ ∀ t, .reaped t ∉ s.control.trace :=
  (numOfTasks_eq_length_iff hreach hring).trans reapedCount_eq_zero

end

/-- The reaper and one task, which has not died. -/
theorem numOfTasks_two : ∃ s, taskSystem.Reachable s ∧ (∀ t, .reaped t ∉ s.control.trace) ∧
    ∃ l : List Addr, s.kernel.InRing l ∧ getNumOfTasks s.kernel = l.length := by
  have hrun : ∃ s, TransitionSystem.runActions Sys.step [.createTask 20 0 0, .schedule, .dispatch]
      (Sys.init 10 0) = some s ∧ s.control.trace = [.dispatched 20, .created 20] :=
    ⟨_, rfl, by decide⟩
  obtain ⟨s, hrun, htrace⟩ := hrun
  have hinit : taskSystem.Reachable (Sys.init 10 0) := .init ⟨10, 0, by decide, rfl⟩
  have hreach := TransitionSystem.reachable_of_runActions hinit hrun
  obtain ⟨l, hring, -⟩ := ringHolds_of_reachable hreach
  have hnone : ∀ t, .reaped t ∉ s.control.trace := by
    rw [htrace]
    simp
  exact ⟨s, hreach, hnone, l, hring, (numOfTasks_iff hreach hring).mpr hnone⟩

/-- Once the reaper has freed the task, it is alone on the list, and the count stays at two. -/
theorem numOfTasks_reaped :
    (∃ s, taskSystem.Reachable s ∧ s.kernel.InRing [10] ∧ getNumOfTasks s.kernel = 2) ∧
    ¬ ∀ s, taskSystem.Reachable s → ∀ l : List Addr, s.kernel.InRing l →
      getNumOfTasks s.kernel = l.length := by
  have hrun : ∃ s, TransitionSystem.runActions Sys.step
      [.createTask 20 0 0, .schedule, .dispatch, .threadExit, .dispatch, .reaperRound]
      (Sys.init 10 0) = some s ∧ s.control.unreaped = {10} ∧ getNumOfTasks s.kernel = 2 :=
    ⟨_, rfl, by decide, by decide⟩
  obtain ⟨s, hrun, hunreaped, hcount⟩ := hrun
  have hinit : taskSystem.Reachable (Sys.init 10 0) := .init ⟨10, 0, by decide, rfl⟩
  have hreach := TransitionSystem.reachable_of_runActions hinit hrun
  obtain ⟨l, hring, hmem⟩ := ringHolds_of_reachable hreach
  have hperm : l.Perm [10] := by
    refine (List.perm_ext_iff_of_nodup hring.circle.nodup (List.nodup_singleton 10)).mpr fun t => ?_
    rw [hmem, hunreaped, Finset.mem_singleton, List.mem_singleton]
  rw [List.perm_singleton.mp hperm] at hring
  refine ⟨⟨s, hreach, hring, hcount⟩, fun hcounts => ?_⟩
  have hone := hcounts s hreach [10] hring
  rw [hcount] at hone
  exact absurd hone (by decide)

end Pelikan

end SystemsProjects

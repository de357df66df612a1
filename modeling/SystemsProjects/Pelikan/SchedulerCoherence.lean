import SystemsProjects.Pelikan.TaskRefinement

/-!
# Where the tasks are

What the invariant of the model says about the kernel's memory when `schedule` is about
to dispatch: the pointers of each queue lead through a list of tasks, these lists have no
task in common or twice, and the state of a task says where it is.

A list in a queue of the kernel is one of the model's by the simulation, and which list a task
is in can be read off its state and its place in the code (`WellPlaced.member_or`). So no task
is in two places: it has only one state.
-/

namespace SystemsProjects

namespace Pelikan

/-- The ready queue, the dead queue, and the wait queue of each mutex. -/
inductive QueueName where
  | ready
  | dead
  | wait (lock : Addr)
  deriving DecidableEq

/-- The tasks in the queue, in order. -/
def Kernel.InQueue (k : Kernel) : QueueName → List Addr → Prop
  | .ready => k.queue.Holds k.readyNext
  | .dead => k.deadQ.Holds k.deadNext
  | .wait lock => (k.mutexes lock).queue.Holds k.mutexWaitNext

/-- `tasks` are the queues, and the states agree with them. -/
structure Placement (s : Sys) (tasks : QueueName → List Addr) : Prop where
  inQueue : ∀ q, s.kernel.InQueue q (tasks q)
  unreaped : ∀ q, ∀ t ∈ tasks q, t ∈ s.control.unreaped
  once : ∀ q t, (tasks q).count t ≤ 1
  apart : ∀ q q' t, t ∈ tasks q → t ∈ tasks q' → q = q'
  somewhere : ∀ t ∈ s.control.unreaped,
    (∃ q, (tasks q).count t = 1) ∨ (t = s.kernel.reaperTask ∧ ∀ q, (tasks q).count t = 0)
  ready_iff : ∀ t ∈ s.control.unreaped, s.kernel.state t = .ready ↔ (tasks .ready).count t = 1
  dead_iff : ∀ t ∈ s.control.unreaped, s.kernel.state t = .dead ↔ (tasks .dead).count t = 1
  blocked_iff : ∀ t ∈ s.control.unreaped, s.kernel.state t = .blocked ↔
    (t = s.kernel.reaperTask ∧ ∀ q, (tasks q).count t = 0) ∨
      ∃! lock, (tasks (.wait lock)).count t = 1

namespace Model

/-- The lists of the model. -/
def tasks (a : Model) : QueueName → List Addr
  | .ready => a.ready
  | .dead => a.dead
  | .wait lock => a.wait lock

/-- Who is in a queue. -/
def Member (a : Model) : QueueName → Addr → Prop
  | .ready, t => t ∈ a.control.unreaped ∧ a.state t = .ready
  | .dead, t => t ∈ a.control.unreaped ∧ a.state t = .dead
  | .wait lock, t => a.Waits lock t

/-- Each queue lists the tasks that belong there. -/
theorem Queued.tasks {a : Model} (h : a.Queued) (q : QueueName) :
    Lists (a.Member q) (a.tasks q) := by
  cases q with
  | ready => exact h.ready
  | dead => exact h.dead
  | wait lock => exact h.wait lock

variable {a : Model} {t : Addr}

/-- The state and the place of a task leave one queue only. -/
theorem Member.unique {q q' : QueueName} (h : a.Member q t) (h' : a.Member q' t) : q = q' := by
  cases q <;> cases q' <;> grind [Member, Waits]

theorem Member.mem_unreaped {q : QueueName} (h : a.Member q t) : t ∈ a.control.unreaped := by
  cases q with
  | ready | dead | wait => exact h.1

/-- A task that is not running is in a queue, or it is the sleeping reaper. -/
theorem WellPlaced.member_or (h : a.WellPlaced) (ht : t ∈ a.control.unreaped)
    (hrun : a.state t ≠ .running) :
    (∃ q, a.Member q t) ∨ (t = a.reaper ∧ a.state t = .blocked) := by
  cases hstate : a.state t with
  | ready => exact .inl ⟨.ready, ht, hstate⟩
  | dead => exact .inl ⟨.dead, ht, hstate⟩
  | running => exact absurd hstate hrun
  | blocked =>
    by_cases hreaper : t = a.reaper
    · exact .inr ⟨hreaper, rfl⟩
    · obtain ⟨lock, hpoint⟩ := h.coherent.blocked_inLock t ht hstate hreaper
      exact .inl ⟨.wait lock, ht, hstate, hreaper, hpoint⟩

/-- The sleeping reaper is in no queue. -/
theorem not_member_of_asleep {q : QueueName} (hreaper : t = a.reaper)
    (hstate : a.state t = .blocked) : ¬ a.Member q t := by
  cases q <;> grind [Member, Waits]

/-- Blocked tasks wait for one mutex, all but the sleeping reaper. -/
theorem WellPlaced.blocked_iff (h : a.WellPlaced) (ht : t ∈ a.control.unreaped)
    (hrun : a.state t ≠ .running) : a.state t = .blocked ↔
      (t = a.reaper ∧ ∀ q, ¬ a.Member q t) ∨ ∃! lock, a.Member (.wait lock) t := by
  constructor
  · intro hstate
    rcases h.member_or ht hrun with ⟨q, hq⟩ | ⟨hreaper, -⟩
    · cases q with
      | wait lock => exact .inr ⟨lock, hq, fun lock' hq' => QueueName.wait.inj (hq'.unique hq)⟩
      | ready | dead => exact absurd (hstate.symm.trans hq.2) nofun
    · exact .inl ⟨hreaper, fun q => not_member_of_asleep hreaper hstate⟩
  · rintro (⟨-, hnone⟩ | ⟨lock, hwaits, -⟩)
    · rcases h.member_or ht hrun with ⟨q, hq⟩ | ⟨-, hstate⟩
      · exact absurd hq (hnone q)
      · exact hstate
    · exact hwaits.2.1

end Model

open Model

variable {s : Sys} {a : Model}

/-- The queues of the kernel are those of the model. -/
theorem Simulates.inQueue (h : Simulates s a) (q : QueueName) :
    s.kernel.InQueue q (a.tasks q) := by
  cases q with
  | ready => exact h.1.ready
  | dead => exact h.1.dead
  | wait lock => exact h.1.wait lock

/-- In the scheduler every task is in its place. -/
theorem Simulates.placement (h : Simulates s a) (hinv : a.WellPlaced)
    (hphase : s.control.phase = .scheduling) : Placement s a.tasks := by
  have hlists := hinv.queued.tasks
  -- while the scheduler runs no task is running
  have hrun : ∀ t ∈ a.control.unreaped, a.state t ≠ .running := by
    intro t ht hstate
    have hrunning := ((hinv.coherent.running_iff t ht).mp hstate).1
    rw [← h.2, hphase] at hrunning
    cases hrunning
  have hone : ∀ q t, (a.tasks q).count t = 1 ↔ a.Member q t := fun q t => (hlists q).count_eq_one
  have hzero : ∀ q t, (a.tasks q).count t = 0 ↔ ¬ a.Member q t := by
    intro q t
    rw [List.count_eq_zero, (hlists q).mem_iff]
  constructor
  · exact h.inQueue
  · intro q t ht
    rw [h.2]
    exact (((hlists q).mem_iff t).mp ht).mem_unreaped
  · exact fun q t => List.nodup_iff_count_le_one.mp (hlists q).nodup t
  · intro q q' t ht ht'
    exact (((hlists q).mem_iff t).mp ht).unique (((hlists q').mem_iff t).mp ht')
  · intro t ht
    rw [h.2] at ht
    simp only [h.1.reaper, hone, hzero]
    -- in exactly one queue, or the reaper asleep and in none
    rcases hinv.member_or ht (hrun t ht) with hq | ⟨hreaper, hstate⟩
    · exact .inl hq
    · exact .inr ⟨hreaper, fun q => not_member_of_asleep hreaper hstate⟩
  · intro t ht
    rw [h.2] at ht
    rw [hone, h.1.state]
    exact (and_iff_right ht).symm
  · intro t ht
    rw [h.2] at ht
    rw [hone, h.1.state]
    exact (and_iff_right ht).symm
  · intro t ht
    rw [h.2] at ht
    simp only [h.1.reaper, h.1.state, hone, hzero]
    exact hinv.blocked_iff ht (hrun t ht)

/-- When the scheduler is about to dispatch, every task is in exactly one place, with the
state that goes with it; and no task was ever dispatched after its death. -/
theorem scheduling_placement {s : Sys} (h : taskSystem.Reachable s)
    (hphase : s.control.phase = .scheduling) :
    (∃ tasks, Placement s tasks) ∧
      ∀ post pre t, s.control.trace = post ++ .dispatched t :: pre → ¬ Died pre t := by
  obtain ⟨a, hreach, hsim⟩ := taskSystem_simulated h
  have hinv := wellPlaced_of_reachable hreach
  refine ⟨⟨a.tasks, hsim.placement hinv hphase⟩, fun post pre t htrace => ?_⟩
  rw [hsim.2] at htrace
  exact hinv.history.dispatched t pre ⟨post, htrace.symm⟩

/-- Three tasks and a mutex: 20 takes the lock and is preempted, 30 waits for it, 40 exits,
20 unlocks it, is preempted and exits, 30 gets the lock. -/
theorem scheduling_placement_three : ∃ s, taskSystem.Reachable s ∧
    s.control.phase = .scheduling ∧ s.control.unreaped = {10, 20, 30, 40} ∧
    (s.kernel.state 10 = .ready ∧ s.kernel.state 20 = .dead ∧ s.kernel.state 30 = .ready ∧
      s.kernel.state 40 = .dead) ∧
    (∃ tasks, Placement s tasks) ∧
      ∀ post pre t, s.control.trace = post ++ .dispatched t :: pre → ¬ Died pre t := by
  have hrun : ∃ s, TransitionSystem.runActions Sys.step
      [.createTask 20 0 0, .createTask 30 0 1, .createTask 40 0 2, .schedule,
        .dispatch, .mutexLock 7, .timer, .dispatch, .mutexLock 7, .dispatch, .threadExit,
        .dispatch, .mutexUnlock 7, .timer, .dispatch, .timer, .dispatch, .resumeLock, .timer,
        .dispatch, .threadExit] (Sys.init 10 0) = some s ∧
      s.control.phase = .scheduling ∧ s.control.unreaped = {10, 20, 30, 40} ∧
      s.kernel.state 10 = .ready ∧ s.kernel.state 20 = .dead ∧ s.kernel.state 30 = .ready ∧
      s.kernel.state 40 = .dead := ⟨_, rfl, by decide, by decide,
        by decide, by decide, by decide, by decide⟩
  obtain ⟨s, hrun, hphase, hunreaped, hstates⟩ := hrun
  have hinit : taskSystem.Reachable (Sys.init 10 0) := .init ⟨10, 0, by decide, rfl⟩
  have hreach := TransitionSystem.reachable_of_runActions hinit hrun
  exact ⟨s, hreach, hphase, hunreaped, hstates, scheduling_placement hreach hphase⟩

end Pelikan

end SystemsProjects

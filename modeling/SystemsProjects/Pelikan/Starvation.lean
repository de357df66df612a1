import SystemsProjects.Pelikan.WakeUps

/-!
# Overtaking

`mutex_unlock` wakes a task but does not give it the mutex. Until that task has the CPU, the one
that has called `mutex_unlock` can lock the mutex again, and the woken task goes back to the end of
the wait queue.

- `Overtakes.round`: one round of overtaking; it ends as it has begun.
- `mutex_starves`: so there is no bound on how often a task is woken in vain.

The round is a computation: six steps of the model, from a state of the shape `Overtakes` back
to one. Any number of rounds is the induction, and the simulation makes a run of the kernel of
it.
-/

namespace SystemsProjects

namespace Pelikan

open Model

variable {s s' : Sys} {a a' : Model} {act : Action} {u t lock : Addr}

/-! ## A round -/

namespace Model

/-- `u` has the mutex and the CPU, `t` waits, and nobody else is ready. -/
structure Overtakes (a : Model) (u t lock : Addr) : Prop where
  phase : a.control.phase = .running
  current : a.current = u
  outside : a.control.point u = .outside
  ordinary : u ≠ a.reaper
  owner : a.owner lock = some u
  wait : a.wait lock = [t]
  ready : a.ready = []

/-- The events of a round, from the last one on. -/
def overtakingRound (u t lock : Addr) : List Event :=
  [.dispatched u, .blocked t lock, .dispatched t, .preempted u, .returned u lock,
    .unlocked u lock t]

theorem Overtakes.ne (h : a.Overtakes u t lock) (hinv : a.WellPlaced) : t ≠ u := by
  rintro rfl
  have hpoint := (h.wait ▸ hinv.queued.wait lock).head.2.2.2
  rw [h.outside] at hpoint
  cases hpoint

/-- `u` unlocks the mutex, locks it again and is preempted; `t` finds it locked. -/
theorem Overtakes.round (h : a.Overtakes u t lock) (hinv : a.WellPlaced) :
    ∃ a', Model.system.Steps a a' ∧ a'.Overtakes u t lock ∧
      a'.control.trace = overtakingRound u t lock ++ a.control.trace := by
  have hother := h.ne hinv
  obtain ⟨hphase, rfl, houtside, hordinary, howner, hwait, hready⟩ := h
  have hpoint := (hwait ▸ hinv.queued.wait lock).head.2.2.2
  have hcall : a.MayCall := ⟨⟨hphase, houtside⟩, hordinary⟩
  -- `u` goes through unlock, lock and the timer
  have hunlocked : Model.system.Steps a _ := .step .refl (Step.unlockWaking hcall hwait)
  have hlocked := hunlocked.step (a := Action.mutexLock lock)
    (Step.acquire (.call hcall) (Function.update_self ..))
  have hpreempted := hlocked.step (a := Action.timer)
    (Step.timer ⟨hphase, Function.update_self ..⟩)
  -- `t` gets the CPU and goes back to the queue
  have hwoken := hpreempted.step (a := Action.dispatch)
    (@Step.dispatch _ t [a.current] rfl (by simp [hready]))
  have hblocked := hwoken.step (a := Action.resumeLock)
    (Step.block (.resume rfl (by simp [hother, hpoint])) (Function.update_self ..))
  have hagain := hblocked.step (a := Action.dispatch)
    (@Step.dispatch _ a.current [] rfl rfl)
  refine ⟨_, hagain, ⟨rfl, rfl, ?_, hordinary, ?_, ?_, rfl⟩, rfl⟩
  · simp [Ne.symm hother]
  · simp
  · simp

/-- Any number of rounds. -/
theorem Overtakes.rounds (h : a.Overtakes u t lock) (hreach : Model.system.Reachable a) (n : Nat) :
    ∃ a' events, Model.system.Steps a a' ∧ a'.Overtakes u t lock ∧
      a'.control.trace = events ++ a.control.trace ∧
      inOrder (Event.wokenOn lock) events = List.replicate n t ∧
      events.count (.dispatched t) = n ∧ ∀ m, .returned t m ∉ events := by
  induction n with
  | zero => exact ⟨a, [], .refl, h, rfl, rfl, rfl, fun m => List.not_mem_nil⟩
  | succ n ih =>
    obtain ⟨a₁, events, hsteps, h₁, htrace, hwoken, hcount, hnone⟩ := ih
    have hinv := wellPlaced_of_reachable (hreach.steps hsteps)
    have hne := h₁.ne hinv
    obtain ⟨a', hround, h', htrace'⟩ := h₁.round hinv
    refine ⟨a', overtakingRound u t lock ++ events, hsteps.trans hround, h', ?_, ?_, ?_, ?_⟩
    · rw [htrace', htrace, List.append_assoc]
    · have hone : inOrder (Event.wokenOn lock) (overtakingRound u t lock) = [t] := by
        simp [overtakingRound, inOrder_cons, Event.wokenOn]
      rw [inOrder_append, hwoken, hone, List.replicate_succ']
    · simp [overtakingRound, hcount, Ne.symm hne]
    · intro m
      simp [overtakingRound, hnone, hne]

end Model

/-- There is no bound on overtaking. From every state of every run in which the current task has a
mutex, one task waits for it and nobody else is ready: the run can go on so that this task is woken
any number of times, gets the CPU each time and never gets the mutex. -/
theorem mutex_starves (hreach : taskSystem.Reachable s) (hcall : s.MayCall)
    (hheld : (s.kernel.mutexes lock).locked ≠ 0)
    (hholder : (s.kernel.mutexes lock).holder = s.kernel.currentTask)
    (hwait : (s.kernel.mutexes lock).queue.Holds s.kernel.mutexWaitNext [t])
    (hready : s.kernel.queue.head = 0) (n : Nat) :
    ∃ s' events, taskSystem.Steps s s' ∧ s'.control.trace = events ++ s.control.trace ∧
      inOrder (Event.wokenOn lock) events = List.replicate n t ∧
      events.count (.dispatched t) = n ∧ (∀ m, .returned t m ∉ events) ∧
      (s'.kernel.mutexes lock).queue.Holds s'.kernel.mutexWaitNext [t] := by
  obtain ⟨a, hareach, hsim⟩ := taskSystem_simulated hreach
  obtain ⟨⟨hphase, houtside⟩, hordinary⟩ := hsim.mayCall_iff.mp hcall
  have howner : a.owner lock = some a.current := by
    have howned := hsim.1.owner lock
    cases ho : a.owner lock with
    | none =>
      rw [ho] at howned
      exact absurd howned.1 hheld
    | some o =>
      rw [ho] at howned
      rw [← howned.2, hholder, hsim.1.current]
  have hovertakes : a.Overtakes a.current t lock :=
    ⟨hphase, rfl, houtside, hordinary, howner, (hsim.1.wait lock).unique hwait,
      hsim.1.ready.head_eq_zero_iff.mp hready⟩
  obtain ⟨a', events, hsteps, h', htrace, hwoken, hcount, hnone⟩ := hovertakes.rounds hareach n
  obtain ⟨s', hsteps', hsim'⟩ := hsim.follow_steps hareach hsteps
  refine ⟨s', events, hsteps', ?_, hwoken, hcount, hnone, ?_⟩
  · rw [hsim'.2, hsim.2, htrace]
  · rw [← h'.wait]
    exact hsim'.1.wait lock

/-- 20 has the mutex 7, and 30 waits for it. -/
theorem mutex_starves_two : ∃ s, taskSystem.Reachable s ∧ ∀ n, ∃ s' events,
    taskSystem.Steps s s' ∧ s'.control.trace = events ++ s.control.trace ∧
      inOrder (Event.wokenOn 7) events = List.replicate n 30 ∧
      events.count (.dispatched 30) = n ∧ (∀ m, .returned 30 m ∉ events) ∧
      (s'.kernel.mutexes 7).queue.Holds s'.kernel.mutexWaitNext [30] := by
  have hrun : ∃ s, TransitionSystem.runActions Sys.step
      [.createTask 20 0 0, .createTask 30 0 1, .schedule, .dispatch, .mutexLock 7, .timer,
        .dispatch, .mutexLock 7, .dispatch] (Sys.init 10 0) = some s ∧ s.MayCall ∧
      (s.kernel.mutexes 7).locked ≠ 0 ∧ (s.kernel.mutexes 7).holder = s.kernel.currentTask ∧
      (s.kernel.mutexes 7).queue.Holds s.kernel.mutexWaitNext [30] ∧ s.kernel.queue.head = 0 :=
    ⟨_, rfl, by decide, by decide, by decide, ⟨by decide, by decide, rfl, by decide, by decide⟩,
      by decide⟩
  obtain ⟨s, hrun, hcall, hheld, hholder, hwait, hready⟩ := hrun
  have hinit : taskSystem.Reachable (Sys.init 10 0) := .init ⟨10, 0, by decide, rfl⟩
  have hreach := TransitionSystem.reachable_of_runActions hinit hrun
  exact ⟨s, hreach, fun n => mutex_starves hreach hcall hheld hholder hwait hready n⟩

end Pelikan

end SystemsProjects

import SystemsProjects.Pelikan.TaskRefinement

/-!
# Mutual exclusion and wake-ups

Two more invariants of the model, and what they say about the kernel.

- `Exclusive`: the owner of a mutex is the task that `mutex_lock` has returned to and
  that has not called `mutex_unlock` since. It is kept while only the task that
  `mutex_lock` has returned to last calls `mutex_unlock`; a woken task has no claim on
  the mutex before it has gone through the loop of `mutex_lock` again.
- `Watched`: a mutex with waiting tasks has an owner, or a task is awake that still is in
  the loop of `mutex_lock` for it. Here nothing is assumed about `mutex_unlock`.

Both are invariants of the model, step by step, and come to the kernel through the simulation.
The owner is read off the events, so that "has returned from `mutex_lock`" does not depend on
what the kernel stores.
-/

namespace SystemsProjects

namespace Pelikan

namespace Model

variable {a a' : Model} {act : Action}

/-! ## Owners -/

/-- The events say who owns a mutex. -/
structure Exclusive (a : Model) : Prop where
  owner_iff : ∀ m t, a.owner m = some t ↔ HasLock a.control.trace t m
  last : ∀ m t, a.owner m = some t → lastReturned a.control.trace m = some t

section

attribute [local grind =] Function.update_apply

/-- Events that neither return from `mutex_lock` nor call `mutex_unlock`. -/
theorem Exclusive.keep (h : a.Exclusive) {e : Event} (howner : a'.owner = a.owner)
    (htrace : a'.control.trace = e :: a.control.trace)
    (hhas : ∀ t m, HasLock (e :: a.control.trace) t m ↔ HasLock a.control.trace t m)
    (hlast : ∀ m, lastReturned (e :: a.control.trace) m = lastReturned a.control.trace m) :
    a'.Exclusive where
  owner_iff m t := by rw [howner, htrace, hhas, h.owner_iff]
  last m t := by rw [howner, htrace, hlast]; exact h.last m t

/-- The owner, if there is one, gives the mutex back. -/
theorem Exclusive.unlock (h : a.Exclusive) {m woken : Addr}
    (hlast : lastReturned a.control.trace m = some a.current)
    (howner : a'.owner = Function.update a.owner m none)
    (htrace : a'.control.trace = .unlocked a.current m woken :: a.control.trace) :
    a'.Exclusive := by
  have hiff := h.owner_iff
  have hthis := h.last
  constructor
  · intro n t
    rw [howner, htrace]
    by_cases hn : n = m
    · -- the owner was the last task to return, and that is the current one
      have hcurrent : a.owner m = some t → t = a.current := by
        intro ho
        exact Option.some.inj ((hthis m t ho).symm.trans hlast)
      grind [HasLock]
    · grind [HasLock]
  · intro n t
    rw [howner, htrace]
    grind [lastReturned]

/-- A step of a disciplined run keeps the owners apart. -/
theorem Exclusive.step (h : a.Exclusive) (hstep : a.Step act a')
    (hdisciplined : Disciplined a'.control.trace) : a'.Exclusive := by
  cases hstep with
  | schedule => exact { h with }
  | @acquire _ lock _ hfree =>
    have hiff := h.owner_iff
    have hlast := h.last
    constructor
    · intro m t
      grind [HasLock]
    · intro m t
      grind [lastReturned]
  | unlockWaking | unlock => exact h.unlock hdisciplined.1 rfl rfl
  | create | dispatch | timer | exitWaking | exit | block | reap | sleep =>
    exact h.keep rfl rfl (fun _ _ => .rfl) fun _ => rfl

/-- The discipline held before, too. -/
theorem Step.disciplined (hstep : a.Step act a') (h : Disciplined a'.control.trace) :
    Disciplined a.control.trace := by
  cases hstep with
  | unlockWaking | unlock => exact h.2
  | _ => exact h

theorem exclusive_of_reachable (h : system.Reachable a) (hd : Disciplined a.control.trace) :
    a.Exclusive := by
  refine h.invariant (P := fun a => Disciplined a.control.trace → a.Exclusive) ?_ ?_ hd
  · rintro _ ⟨reaper, -, rfl⟩ -
    exact ⟨fun m t => iff_of_false nofun id, nofun⟩
  · intro a act a' _ ih hstep hd'
    exact (ih (hstep.disciplined hd')).step hstep hd'

/-! ## Wake-ups -/

/-- The task is awake and still in the loop of `mutex_lock`. -/
def AwakeIn (a : Model) (m t : Addr) : Prop :=
  t ∈ a.control.unreaped ∧ a.control.point t = .inLock m ∧
    (a.state t = .ready ∨ a.state t = .running)

/-- No task sleeps on a mutex that is free, with nobody awake to pass it on. -/
structure Watched (a : Model) : Prop where
  woken : ∀ m t, a.AwakeIn m t → Woken a.control.trace t m
  awake : ∀ m, a.wait m ≠ [] → a.owner m = none → ∃ t, a.AwakeIn m t

attribute [local grind =] MayCall Outside

/-- Steps that touch no mutex: the same tasks are awake in the loop. -/
theorem Watched.keep (h : a.Watched) (hawake : ∀ m t, a'.AwakeIn m t ↔ a.AwakeIn m t)
    (hwoken : ∀ m t, Woken a.control.trace t m → Woken a'.control.trace t m)
    (hwait : a'.wait = a.wait) (howner : a'.owner = a.owner) : a'.Watched where
  woken m t ht := hwoken m t (h.woken m t ((hawake m t).mp ht))
  awake m hne hfree := by
    rw [hwait] at hne
    rw [howner] at hfree
    obtain ⟨t, ht⟩ := h.awake m hne hfree
    exact ⟨t, (hawake m t).mpr ht⟩

/-- Steps that touch one mutex. In the loops for the others nothing changes. -/
theorem Watched.touch (h : a.Watched) (lock : Addr)
    (hthis : a'.wait lock ≠ [] → a'.owner lock = none → ∃ t, a'.AwakeIn lock t)
    (hwoken : ∀ m t, a'.AwakeIn m t → Woken a'.control.trace t m)
    (hother : ∀ m, m ≠ lock → a'.wait m = a.wait m ∧ a'.owner m = a.owner m ∧
      ∀ t, a.AwakeIn m t → a'.AwakeIn m t) : a'.Watched where
  woken := hwoken
  awake m hne hfree := by
    by_cases hm : m = lock
    · subst hm
      exact hthis hne hfree
    · obtain ⟨hwait, howner, hawake⟩ := hother m hm
      rw [hwait] at hne
      rw [howner] at hfree
      obtain ⟨t, ht⟩ := h.awake m hne hfree
      exact ⟨t, hawake t ht⟩

/-- Every step that frees a mutex wakes the first that waits for it. -/
theorem Watched.step (h : a.Watched) (hinv : a.WellPlaced) (hstep : a.Step act a') :
    a'.Watched := by
  have hrun := hinv.coherent.current_running
  have hreaper := hinv.coherent.reaper_outside
  cases hstep with
  | schedule => exact ⟨h.woken, h.awake⟩
  | create hcall hne hfresh =>
    exact h.keep (by grind [AwakeIn]) (fun _ _ => id) rfl rfl
  | dispatch hphase hready =>
    obtain ⟨htask, hstate⟩ := (hready ▸ hinv.queued.ready).head
    exact h.keep (by grind [AwakeIn]) (fun _ _ => id) rfl rfl
  | timer hout | exitWaking hcall hasleep | exit hcall hawake | sleep hout heq hdead =>
    exact h.keep (by grind [AwakeIn]) (fun _ _ => id) rfl rfl
  | reap hout heq hdead =>
    obtain ⟨hcorpse, hstate⟩ := (hdead ▸ hinv.queued.dead).head
    exact h.keep (by grind [AwakeIn]) (fun _ _ => id) rfl rfl
  | @acquire _ lock hlocks hfree =>
    -- the lock is taken, so it has an owner to watch it
    have hpoint := hlocks.point
    have hcurrent := hrun hlocks.phase_running
    refine h.touch lock ?_ ?_ (by grind [AwakeIn])
    · intro _ howned
      grind
    · intro m t ht
      have hold : a.AwakeIn m t := by grind [AwakeIn]
      exact h.woken m t hold
  | @block _ lock _ hlocks howner =>
    -- the caller joins the waiters of a lock that somebody owns
    have hpoint := hlocks.point
    have hcurrent := hrun hlocks.phase_running
    refine h.touch lock ?_ ?_ (by grind [AwakeIn])
    · intro _ hfree
      grind
    · intro m t ht
      have hne : t ≠ a.current := by grind [AwakeIn]
      have hold : a.AwakeIn m t := by grind [AwakeIn]
      exact ⟨fun heq => hne heq.1.symm, h.woken m t hold⟩
  | @unlockWaking lock task rest hcall hwait =>
    obtain ⟨htask, hstate, hne, hpoint⟩ := (hwait ▸ hinv.queued.wait lock).head
    refine h.touch lock ?_ ?_ (by grind [AwakeIn])
    · -- the task that is woken is awake, and in the loop
      intro _ _
      exact ⟨task, by grind [AwakeIn]⟩
    · intro m t ht
      by_cases heq : t = task
      · have hm : m = lock := by grind [AwakeIn]
        exact .inl ⟨heq.symm, hm.symm⟩
      · have hold : a.AwakeIn m t := by grind [AwakeIn]
        exact .inr (h.woken m t hold)
  | @unlock lock hcall hwait =>
    refine h.touch lock ?_ ?_ (by grind [AwakeIn])
    · -- nobody waits, so nobody has to be awake
      exact fun hne => absurd hwait hne
    · intro m t ht
      exact .inr (h.woken m t ht)

theorem watched_of_reachable (h : system.Reachable a) : a.Watched := by
  refine h.invariant (P := Watched) ?_ ?_
  · rintro _ ⟨reaper, -, rfl⟩
    refine ⟨fun m t ht => ?_, fun m hne => absurd rfl hne⟩
    cases ht.2.1
  · intro a act a' hreach ih hstep
    exact ih.step (wellPlaced_of_reachable hreach) hstep

end

end Model

open Model

/-! ## The kernel -/

variable {s : Sys}

/-- At most one task has returned from `mutex_lock` and not unlocked, `locked` says whether
there is one, and `holder` who it is. -/
theorem mutual_exclusion (h : taskSystem.Reachable s) (hd : Disciplined s.control.trace)
    (m : Addr) :
    (∀ t u, HasLock s.control.trace t m → HasLock s.control.trace u m → t = u) ∧
      ((s.kernel.mutexes m).locked ≠ 0 ↔ ∃ t, HasLock s.control.trace t m) ∧
      (∀ t, HasLock s.control.trace t m → (s.kernel.mutexes m).holder = t) ∧
      ((∀ t, ¬ HasLock s.control.trace t m) → (s.kernel.mutexes m).holder = 0) := by
  obtain ⟨a, hreach, hrep, hcontrol⟩ := taskSystem_simulated h
  rw [hcontrol] at hd ⊢
  -- the owner of the abstract lock is the task that has it in the trace
  have hiff := (exclusive_of_reachable hreach hd).owner_iff m
  have howner := hrep.owner m
  cases ho : a.owner m with
  | none =>
    have hnone : ∀ t, ¬ HasLock a.control.trace t m := by
      intro t ht
      rw [← hiff, ho] at ht
      cases ht
    rw [ho] at howner
    refine ⟨fun t u ht => absurd ht (hnone t), ?_,
      fun t ht => absurd ht (hnone t), fun _ => howner.2⟩
    exact iff_of_false (not_not.mpr howner.1) fun ⟨t, ht⟩ => hnone t ht
  | some o =>
    have honly : ∀ t, HasLock a.control.trace t m → o = t := by
      intro t ht
      rw [← hiff, ho] at ht
      exact Option.some.inj ht
    have hhas : HasLock a.control.trace o m := (hiff o).mp ho
    rw [ho] at howner
    refine ⟨fun t u ht hu => (honly t ht).symm.trans (honly u hu), ?_,
      fun t ht => howner.2.trans (honly t ht), fun hnone => absurd hhas (hnone o)⟩
    exact iff_of_true howner.1 ⟨o, hhas⟩

/-- 20 takes the mutex 7 and is preempted, 30 waits for it, 20 unlocks it, takes it again and
is preempted, and 30, woken, has to wait again. -/
theorem mutual_exclusion_contended : ∃ s, taskSystem.Reachable s ∧ HasLock s.control.trace 20 7 ∧
    (∀ t u, HasLock s.control.trace t 7 → HasLock s.control.trace u 7 → t = u) ∧
      ((s.kernel.mutexes 7).locked ≠ 0 ↔ ∃ t, HasLock s.control.trace t 7) ∧
      (∀ t, HasLock s.control.trace t 7 → (s.kernel.mutexes 7).holder = t) ∧
      ((∀ t, ¬ HasLock s.control.trace t 7) → (s.kernel.mutexes 7).holder = 0) := by
  have hrun : ∃ s, TransitionSystem.runActions Sys.step
      [.createTask 20 0 0, .createTask 30 0 1, .schedule, .dispatch, .mutexLock 7, .timer,
        .dispatch, .mutexLock 7, .dispatch, .mutexUnlock 7, .mutexLock 7, .timer, .dispatch,
        .resumeLock] (Sys.init 10 0) = some s ∧
      s.control.trace = [.blocked 30 7, .dispatched 30, .preempted 20, .returned 20 7,
        .unlocked 20 7 30, .dispatched 20, .blocked 30 7, .dispatched 30, .preempted 20,
        .returned 20 7, .dispatched 20, .created 30, .created 20] := ⟨_, rfl, by decide⟩
  obtain ⟨s, hrun, htrace⟩ := hrun
  have hinit : taskSystem.Reachable (Sys.init 10 0) := .init ⟨10, 0, by decide, rfl⟩
  have hreach := TransitionSystem.reachable_of_runActions hinit hrun
  have hhas : HasLock s.control.trace 20 7 := by
    rw [htrace]
    exact .inl ⟨rfl, rfl⟩
  have hdisciplined : Disciplined s.control.trace := by
    rw [htrace]
    exact ⟨rfl, trivial⟩
  exact ⟨s, hreach, hhas, mutual_exclusion hreach hdisciplined 7⟩

/-- Nobody is left sleeping on a free mutex: when its wait queue is not empty, the mutex is
locked, or a task that `mutex_unlock` has woken is on its way through the loop of
`mutex_lock`. A blocked task in that loop is in the wait queue, once. -/
theorem no_lost_wakeup (h : taskSystem.Reachable s) (m : Addr) :
    ∃ ready waiting, s.kernel.queue.Holds s.kernel.readyNext ready ∧
      (s.kernel.mutexes m).queue.Holds s.kernel.mutexWaitNext waiting ∧
      (waiting ≠ [] → (s.kernel.mutexes m).locked ≠ 0 ∨
        ∃ t, Woken s.control.trace t m ∧ s.control.point t = .inLock m ∧
          (t ∈ ready ∨ (s.control.phase = .running ∧ t = s.kernel.currentTask))) ∧
      ∀ t ∈ s.control.unreaped, s.control.point t = .inLock m → s.kernel.state t = .blocked →
        waiting.count t = 1 := by
  obtain ⟨a, hreach, hrep, hcontrol⟩ := taskSystem_simulated h
  have hinv := wellPlaced_of_reachable hreach
  have hwatched := watched_of_reachable hreach
  rw [hcontrol, hrep.state, hrep.current]
  refine ⟨a.ready, a.wait m, hrep.ready, hrep.wait m, fun hne => ?_, fun t ht hpoint hstate => ?_⟩
  · have howner := hrep.owner m
    cases ho : a.owner m with
    | some o =>
      rw [ho] at howner
      exact .inl howner.1
    | none =>
      obtain ⟨t, hawake⟩ := hwatched.awake m hne ho
      refine .inr ⟨t, hwatched.woken m t hawake, hawake.2.1, ?_⟩
      obtain ⟨ht, -, hready | hrunning⟩ := hawake
      · exact .inl ((hinv.queued.ready.mem_iff t).mpr ⟨ht, hready⟩)
      · exact .inr ((hinv.coherent.running_iff t ht).mp hrunning)
  · rw [(hinv.queued.wait m).count_eq_one]
    refine ⟨ht, hstate, ?_, hpoint⟩
    rintro rfl
    rw [hinv.coherent.reaper_outside] at hpoint
    cases hpoint

/-- 30 and 40 wait for the mutex 7, and 20 unlocks it: it is free, 40 is still waiting, and 30
is on its way. -/
theorem no_lost_wakeup_two : ∃ s, taskSystem.Reachable s ∧ (s.kernel.mutexes 7).locked = 0 ∧
    (s.kernel.mutexes 7).queue.head = 40 ∧
    ∃ ready waiting, s.kernel.queue.Holds s.kernel.readyNext ready ∧
      (s.kernel.mutexes 7).queue.Holds s.kernel.mutexWaitNext waiting ∧
      (waiting ≠ [] → (s.kernel.mutexes 7).locked ≠ 0 ∨
        ∃ t, Woken s.control.trace t 7 ∧ s.control.point t = .inLock 7 ∧
          (t ∈ ready ∨ (s.control.phase = .running ∧ t = s.kernel.currentTask))) ∧
      ∀ t ∈ s.control.unreaped, s.control.point t = .inLock 7 → s.kernel.state t = .blocked →
        waiting.count t = 1 := by
  have hrun : ∃ s, TransitionSystem.runActions Sys.step
      [.createTask 20 0 0, .createTask 30 0 1, .createTask 40 0 2, .schedule, .dispatch,
        .mutexLock 7, .timer, .dispatch, .mutexLock 7, .dispatch, .mutexLock 7, .dispatch,
        .mutexUnlock 7] (Sys.init 10 0) = some s ∧
      (s.kernel.mutexes 7).locked = 0 ∧ (s.kernel.mutexes 7).queue.head = 40 :=
    ⟨_, rfl, by decide, by decide⟩
  obtain ⟨s, hrun, hfree, hhead⟩ := hrun
  have hinit : taskSystem.Reachable (Sys.init 10 0) := .init ⟨10, 0, by decide, rfl⟩
  have hreach := TransitionSystem.reachable_of_runActions hinit hrun
  exact ⟨s, hreach, hfree, hhead, no_lost_wakeup hreach 7⟩

end Pelikan

end SystemsProjects

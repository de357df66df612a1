import SystemsProjects.Lib.Fifo
import SystemsProjects.Pelikan.TaskRefinement

/-!
# Who is woken, and who is buried

The wait queues of the mutexes and the dead queue over whole runs, in terms of the events.

- `Model.WakesInTurn`: over a stretch of a run, the calls of `mutex_unlock` for one mutex wake the
  tasks of its wait queue in their order. `mutex_bounded_waiting`: who is at position `k` is woken
  by the call after the next `k`.
- `Model.Buries`: the tasks that were reaped and those in the dead queue are the ones that have
  called `thread_exit`, in this order. `reaper_buries`: the reaper does not sleep while there is one
  in the queue.

Both halves have the form of a sum: what has come out, followed by what is still in the queue,
is what was there and what came in, in this order. A step moves one task from the one part to
the other, or adds one at the end. The null that `mutex_unlock` returns when nobody waits is
filtered out of the events.
-/

namespace SystemsProjects

namespace Pelikan

/-! ## Tasks in the order of their events -/

/-- The tasks that the events name, from the first event on. -/
def inOrder (f : Event → Option Addr) (trace : List Event) : List Addr :=
  (trace.filterMap f).reverse

/-- `mutex_unlock` was called for the mutex, and has woken the task, or null. -/
def Event.wokenOn (lock : Addr) : Event → Option Addr
  | .unlocked _ m woken => if m = lock then some woken else none
  | _ => none

/-- The task that called `thread_exit`. -/
def Event.exitedTask : Event → Option Addr
  | .exited task => some task
  | _ => none

/-- The task that the reaper freed. -/
def Event.reapedTask : Event → Option Addr
  | .reaped task => some task
  | _ => none

section InOrder

variable {f : Event → Option Addr} {e : Event} {t : Addr} {trace : List Event}

@[simp] theorem inOrder_nil : inOrder f [] = [] := rfl

theorem inOrder_cons : inOrder f (e :: trace) = inOrder f trace ++ (f e).toList := by
  rw [inOrder, inOrder, List.filterMap_cons]
  cases f e with
  | none => simp
  | some t => simp

/-- What happened over two stretches of a run. -/
theorem inOrder_append (events trace : List Event) :
    inOrder f (events ++ trace) = inOrder f trace ++ inOrder f events := by
  rw [inOrder, List.filterMap_append, List.reverse_append, inOrder, inOrder]

end InOrder

/-! ## Zeros among the woken

A call of `mutex_unlock` with nobody waiting wakes null. -/

section Zeros

variable {woken waiting left added : List Addr} {n j : Nat}

/-- Without zeros among the first `n`, these are the first of the others. -/
theorem filter_of_nonzero (h : ∀ j < n, woken[j]? ≠ some 0) :
    woken.filter (· ≠ 0) = woken.take n ++ (woken.drop n).filter (· ≠ 0) := by
  have htake : (woken.take n).filter (· ≠ 0) = woken.take n := by
    rw [List.filter_eq_self]
    intro t ht
    obtain ⟨j, hj, hget⟩ := List.mem_iff_getElem.mp ht
    rw [List.length_take] at hj
    rw [List.getElem_take] at hget
    have hne := h j (by omega)
    rw [List.getElem?_eq_getElem (by omega), hget] at hne
    simpa using hne
  conv_lhs => rw [← List.take_append_drop n woken, List.filter_append, htake]

theorem filter_getElem? (h : ∀ j < n, woken[j]? ≠ some 0) (hn : j < n) (hj : j < woken.length) :
    (woken.filter (· ≠ 0))[j]? = woken[j]? := by
  rw [filter_of_nonzero h, List.getElem?_append_left (by rw [List.length_take]; omega),
    List.getElem?_take_of_lt hn]

theorem filter_eq_of_le (h : ∀ j < n, woken[j]? ≠ some 0) (hlen : woken.length ≤ n) :
    woken.filter (· ≠ 0) = woken := by
  rw [filter_of_nonzero h, List.take_of_length_le hlen, List.drop_of_length_le hlen]
  simp

theorem filter_take (h : ∀ j < n, woken[j]? ≠ some 0) {k : Nat} (hk : k ≤ n) :
    (woken.filter (· ≠ 0)).take k = woken.take k := by
  by_cases hlen : woken.length ≤ n
  · rw [filter_eq_of_le h hlen]
  · rw [filter_of_nonzero h, List.take_append_of_le_length (by rw [List.length_take]; omega),
      List.take_take, Nat.min_eq_left hk]

end Zeros

namespace Model

variable {a a' a'' : Model} {act : Action} {lock : Addr}

/-! ## The wait queue of a mutex -/

/-- Between two states the wait queue is served from the front and filled at the end, and no call
of `mutex_unlock` finds it empty before those are woken that are in it now. -/
def WakesInTurn (a a' : Model) (lock : Addr) : Prop :=
  ∃ events added, a'.control.trace = events ++ a.control.trace ∧
    (inOrder (Event.wokenOn lock) events).filter (· ≠ 0) ++ a'.wait lock = a.wait lock ++ added ∧
    ∀ j < (a.wait lock).length, (inOrder (Event.wokenOn lock) events)[j]? ≠ some 0

theorem WakesInTurn.refl (a : Model) (lock : Addr) : a.WakesInTurn a lock :=
  ⟨[], [], rfl, by simp, by simp⟩

theorem WakesInTurn.trans (h : a.WakesInTurn a' lock) (h' : a'.WakesInTurn a'' lock) :
    a.WakesInTurn a'' lock := by
  obtain ⟨events, added, htrace, hqueue, hnonzero⟩ := h
  obtain ⟨events', added', htrace', hqueue', hnonzero'⟩ := h'
  refine ⟨events' ++ events, added ++ added', ?_, ?_, fun j hj => ?_⟩
  · rw [htrace', htrace, List.append_assoc]
  · rw [inOrder_append, List.filter_append, List.append_assoc, hqueue', ← List.append_assoc, hqueue,
      List.append_assoc]
  · rw [inOrder_append]
    by_cases hfirst : j < (inOrder (Event.wokenOn lock) events).length
    · rw [List.getElem?_append_left hfirst]
      exact hnonzero j hj
    · rw [List.getElem?_append_right (by omega)]
      -- everybody woken so far was in the queue
      have hall := filter_eq_of_le hnonzero (by omega)
      have hlen := congrArg List.length hqueue
      rw [hall, List.length_append, List.length_append] at hlen
      exact hnonzero' _ (by omega)

/-- Steps that do not touch the mutex. -/
theorem WakesInTurn.keep (events : List Event)
    (htrace : a'.control.trace = events ++ a.control.trace)
    (hevents : inOrder (Event.wokenOn lock) events = []) (added : List Addr)
    (hwait : a'.wait lock = a.wait lock ++ added) : a.WakesInTurn a' lock :=
  ⟨events, added, htrace, by rw [hevents]; simpa using hwait, by rw [hevents]; simp⟩

theorem Step.wakesInTurn (hinv : a.WellPlaced) (hstep : a.Step act a') (lock : Addr) :
    a.WakesInTurn a' lock := by
  cases hstep with
  | schedule => exact .keep [] rfl rfl [] (List.append_nil _).symm
  | create | dispatch | timer | exitWaking | exit | acquire | reap | sleep =>
    exact .keep [_] rfl rfl [] (List.append_nil _).symm
  | @block _ m t hlocks howner =>
    -- the caller goes behind those that wait for this lock
    by_cases hm : lock = m
    · subst hm
      exact .keep [_] rfl rfl [a.current] (Function.update_self ..)
    · refine .keep [_] rfl rfl [] ?_
      rw [List.append_nil]
      exact Function.update_of_ne hm ..
  | @unlockWaking m task rest hcall hwait =>
    by_cases hm : lock = m
    · subst hm
      -- the first of the queue is woken, and it is a task
      have hwaits := (hwait ▸ hinv.queued.wait lock).head
      have hne : task ≠ 0 := fun hzero => hinv.coherent.zero_notMem (hzero ▸ hwaits.1)
      have hwoken : inOrder (Event.wokenOn lock) [.unlocked a.current lock task] = [task] := by
        simp [inOrder_cons, Event.wokenOn]
      refine ⟨[.unlocked a.current lock task], [], rfl, ?_, fun j _ => ?_⟩
      · rw [hwoken, hwait]
        show [task].filter (· ≠ 0) ++ Function.update a.wait lock rest lock = _
        rw [Function.update_self]
        simp [hne]
      · rw [hwoken]
        cases j with
        | zero => simpa using hne
        | succ j => simp
    · have hwoken : inOrder (Event.wokenOn lock) [.unlocked a.current m task] = [] := by
        simp [inOrder_cons, Event.wokenOn, Ne.symm hm]
      refine .keep [.unlocked a.current m task] rfl hwoken [] ?_
      rw [List.append_nil]
      exact Function.update_of_ne hm ..
  | @unlock m hcall hwait =>
    by_cases hm : lock = m
    · subst hm
      -- nobody waits: the call finds 0 and wakes nobody
      have hwoken : inOrder (Event.wokenOn lock) [.unlocked a.current lock 0] = [0] := by
        simp [inOrder_cons, Event.wokenOn]
      refine ⟨[.unlocked a.current lock 0], [], rfl, ?_, fun j hj => ?_⟩
      · rw [hwoken]
        simp
      · rw [hwait] at hj
        exact absurd hj (Nat.not_lt_zero j)
    · have hwoken : inOrder (Event.wokenOn lock) [.unlocked a.current m 0] = [] := by
        simp [inOrder_cons, Event.wokenOn, Ne.symm hm]
      exact .keep [.unlocked a.current m 0] rfl hwoken [] (List.append_nil _).symm

/-! ## The dead queue -/

/-- Who has called `thread_exit` was reaped or is in the dead queue, in this order, and the reaper
is awake as long as there is somebody in it. -/
structure Buries (a : Model) : Prop where
  order : inOrder Event.reapedTask a.control.trace ++ a.dead =
    inOrder Event.exitedTask a.control.trace
  awake : a.dead ≠ [] → a.state a.reaper ≠ .blocked
  slept : ∀ post pre, a.control.trace = post ++ .slept :: pre →
    inOrder Event.reapedTask pre = inOrder Event.exitedTask pre

/-- One more event: either it is the one in question, or the split is one of before. -/
theorem split_cons {P : List Event → Prop} {e e' : Event} {trace : List Event}
    (h : ∀ post pre, trace = post ++ e' :: pre → P pre) (hnew : e = e' → P trace)
    (post pre : List Event) (hsplit : e :: trace = post ++ e' :: pre) : P pre := by
  cases post with
  | nil =>
    obtain ⟨heq, rfl⟩ := List.cons.inj hsplit
    exact hnew heq
  | cons _ post => exact h post pre (List.cons.inj hsplit).2

/-- Steps whose event is neither of these. -/
theorem Buries.keep (h : a.Buries) {e : Event} (htrace : a'.control.trace = e :: a.control.trace)
    (he : e.reapedTask = none ∧ e.exitedTask = none ∧ e ≠ .slept) (hdead : a'.dead = a.dead)
    (hawake : a.dead ≠ [] → a.state a.reaper ≠ .blocked → a'.state a'.reaper ≠ .blocked) :
    a'.Buries where
  order := by
    rw [htrace, inOrder_cons, inOrder_cons, he.1, he.2.1, hdead]
    simpa using h.order
  awake hne := by
    rw [hdead] at hne
    exact hawake hne (h.awake hne)
  slept post pre hsplit := by
    rw [htrace] at hsplit
    exact split_cons h.slept (fun heq => absurd heq he.2.2) post pre hsplit

/-- A state that is set to anything but blocked keeps the reaper awake. -/
theorem update_ne_blocked {state : Addr → TaskState} {t r : Addr} {st : TaskState}
    (hst : st ≠ .blocked) (h : state r ≠ .blocked) : Function.update state t st r ≠ .blocked := by
  by_cases heq : r = t
  · rw [heq, Function.update_self]
    exact hst
  · rwa [Function.update_of_ne heq]

theorem Buries.step (h : a.Buries) (hinv : a.WellPlaced) (hstep : a.Step act a') : a'.Buries := by
  cases hstep with
  | schedule hphase => exact ⟨h.order, h.awake, h.slept⟩
  | create hcall hne hfresh =>
    exact h.keep rfl ⟨rfl, rfl, by simp⟩ rfl fun _ hawake => update_ne_blocked (by decide) hawake
  | dispatch hphase hready =>
    exact h.keep rfl ⟨rfl, rfl, by simp⟩ rfl fun _ hawake => update_ne_blocked (by decide) hawake
  | timer hout =>
    exact h.keep rfl ⟨rfl, rfl, by simp⟩ rfl fun _ hawake => update_ne_blocked (by decide) hawake
  | acquire hlocks hfree => exact h.keep rfl ⟨rfl, rfl, by simp⟩ rfl fun _ hawake => hawake
  | unlock hcall hwait => exact h.keep rfl ⟨rfl, rfl, by simp⟩ rfl fun _ hawake => hawake
  | unlockWaking hcall hwait =>
    exact h.keep rfl ⟨rfl, rfl, by simp⟩ rfl fun _ hawake => update_ne_blocked (by decide) hawake
  | block hlocks howner =>
    refine h.keep rfl ⟨rfl, rfl, by simp⟩ rfl fun _ hawake => ?_
    -- the reaper takes no lock
    have hne := hlocks.current_ne_reaper hinv.coherent
    show Function.update a.state a.current .blocked a.reaper ≠ .blocked
    rwa [Function.update_of_ne hne.symm]
  | exitWaking hcall hreaper =>
    refine ⟨?_, fun _ => ?_, split_cons h.slept fun heq => Event.noConfusion heq⟩
    · show inOrder _ (.exited a.current :: a.control.trace) ++ (a.dead ++ [a.current]) =
        inOrder _ (.exited a.current :: a.control.trace)
      rw [inOrder_cons, inOrder_cons, ← h.order]
      simp [Event.reapedTask, Event.exitedTask]
    · have hready : Function.update (Function.update a.state a.current .dead) a.reaper .ready
          a.reaper = .ready := Function.update_self ..
      exact hready.trans_ne (by decide)
  | exit hcall hreaper =>
    refine ⟨?_, fun _ => ?_, split_cons h.slept fun heq => Event.noConfusion heq⟩
    · show inOrder _ (.exited a.current :: a.control.trace) ++ (a.dead ++ [a.current]) =
        inOrder _ (.exited a.current :: a.control.trace)
      rw [inOrder_cons, inOrder_cons, ← h.order]
      simp [Event.reapedTask, Event.exitedTask]
    · show Function.update a.state a.current .dead a.reaper ≠ .blocked
      rwa [Function.update_of_ne hcall.2.symm]
  | @reap corpse rest hout hreaper hdead =>
    refine ⟨?_, fun _ => h.awake (by simp [hdead]),
      split_cons h.slept fun heq => Event.noConfusion heq⟩
    show inOrder _ (.reaped corpse :: a.control.trace) ++ rest =
      inOrder _ (.reaped corpse :: a.control.trace)
    have horder := h.order
    rw [hdead] at horder
    rw [inOrder_cons, inOrder_cons]
    simpa [Event.reapedTask, Event.exitedTask] using horder
  | sleep hout hreaper hdead =>
    have horder := h.order
    rw [hdead, List.append_nil] at horder
    refine ⟨?_, fun hne => absurd hdead hne, split_cons h.slept fun _ => horder⟩
    show inOrder _ (.slept :: a.control.trace) ++ a.dead = inOrder _ (.slept :: a.control.trace)
    rw [inOrder_cons, inOrder_cons, hdead, horder]
    simp [Event.reapedTask, Event.exitedTask]

theorem buries_of_reachable (h : system.Reachable a) : a.Buries := by
  refine h.invariant (P := Buries) ?_ ?_
  · rintro _ ⟨reaper, -, rfl⟩
    refine ⟨rfl, fun hne => absurd rfl hne, fun post pre hsplit => ?_⟩
    simp [init] at hsplit
  · intro a act a' hreach ih hstep
    exact ih.step (wellPlaced_of_reachable hreach) hstep

end Model

open Model

variable {s s' : Sys} {a : Model}

/-- A stretch of a run of the kernel is one of the model, and keeps to the wait queue. -/
theorem Simulates.wakesInTurn (h : Simulates s a) (hreach : Model.system.Reachable a)
    (hsteps : taskSystem.Steps s s') (lock : Addr) :
    ∃ a', Simulates s' a' ∧ Model.system.Reachable a' ∧ a.WakesInTurn a' lock := by
  induction hsteps with
  | refl => exact ⟨a, h, hreach, .refl a lock⟩
  | step _ hstep ih =>
    obtain ⟨a₁, hsim₁, hreach₁, hturn⟩ := ih
    have hinv := wellPlaced_of_reachable hreach₁
    obtain ⟨a', hstep', hsim'⟩ := hsim₁.step hinv hstep
    exact ⟨a', hsim', .step hreach₁ hstep', hturn.trans (hstep'.wakesInTurn hinv lock)⟩

/-- From any moment of any run on: of the tasks that wait for a mutex, the one at position `k` of
the wait queue is woken by the call of `mutex_unlock` for this mutex that comes after the next `k`,
and not before; these wake the tasks ahead of it, in the order of the queue. Until then it waits in
the queue, further in front. -/
theorem mutex_bounded_waiting (hreach : taskSystem.Reachable s) {lock : Addr} {waiting : List Addr}
    (hqueue : (s.kernel.mutexes lock).queue.Holds s.kernel.mutexWaitNext waiting) {k : Nat}
    {t : Addr} (hk : waiting[k]? = some t) (hsteps : taskSystem.Steps s s') :
    ∃ events, s'.control.trace = events ++ s.control.trace ∧
      t ∉ (inOrder (Event.wokenOn lock) events).take k ∧
      (∀ j ≤ k, j < (inOrder (Event.wokenOn lock) events).length →
        (inOrder (Event.wokenOn lock) events)[j]? = waiting[j]?) ∧
      ((inOrder (Event.wokenOn lock) events).length ≤ k →
        ∃ left, (s'.kernel.mutexes lock).queue.Holds s'.kernel.mutexWaitNext left ∧
          left[k - (inOrder (Event.wokenOn lock) events).length]? = some t) := by
  obtain ⟨a, hareach, hsim⟩ := taskSystem_simulated hreach
  obtain ⟨a', hsim', -, events, added, htrace, hfifo, hnonzero⟩ :=
    hsim.wakesInTurn hareach hsteps lock
  obtain rfl := hqueue.unique (hsim.1.wait lock)
  have hnodup := ((wellPlaced_of_reachable hareach).queued.wait lock).nodup
  have hlt : k < (a.wait lock).length := (List.getElem?_eq_some_iff.mp hk).1
  refine ⟨events, ?_, ?_, ?_, ?_⟩
  · rw [hsim'.2, hsim.2, htrace]
  · rw [← filter_take hnonzero (Nat.le_of_lt hlt)]
    exact Fifo.not_served_before hfifo hnodup hk
  · intro j hj hserved
    have hsame := filter_getElem? hnonzero (by omega) hserved
    have hsome := hsame.trans (List.getElem?_eq_getElem hserved)
    rw [← hsame]
    exact Fifo.served_in_order hfifo (by omega) (List.getElem?_eq_some_iff.mp hsome).1
  · intro hserved
    rw [filter_eq_of_le hnonzero (by omega)] at hfifo
    exact ⟨a'.wait lock, hsim'.1.wait lock, Fifo.waits_on hfifo hk hserved⟩

/-- Behind task 20, task 30 waits for two calls of `mutex_unlock`. -/
theorem mutex_bounded_waiting_two : ∃ s s', taskSystem.Reachable s ∧ taskSystem.Steps s s' ∧
    ∃ events, s'.control.trace = events ++ s.control.trace ∧
      30 ∉ (inOrder (Event.wokenOn 7) events).take 1 ∧
      (∀ j ≤ 1, j < (inOrder (Event.wokenOn 7) events).length →
        (inOrder (Event.wokenOn 7) events)[j]? = [20, 30][j]?) ∧
      ((inOrder (Event.wokenOn 7) events).length ≤ 1 →
        ∃ left, (s'.kernel.mutexes 7).queue.Holds s'.kernel.mutexWaitNext left ∧
          left[1 - (inOrder (Event.wokenOn 7) events).length]? = some 30) := by
  have hrun : ∃ s s', TransitionSystem.runActions Sys.step
      [.createTask 40 0 0, .createTask 20 0 0, .createTask 30 0 1, .schedule, .dispatch,
        .mutexLock 7, .timer, .dispatch, .mutexLock 7, .dispatch, .mutexLock 7, .dispatch]
        (Sys.init 10 0) = some s ∧
      s.step (.mutexUnlock 7) = some s' ∧
      (s.kernel.mutexes 7).queue.Holds s.kernel.mutexWaitNext [20, 30] :=
    ⟨_, _, rfl, rfl, by decide, by decide, ⟨rfl, rfl⟩, by decide, by decide⟩
  obtain ⟨s, s', hrun, hstep, hqueue⟩ := hrun
  have hinit : taskSystem.Reachable (Sys.init 10 0) := .init ⟨10, 0, by decide, rfl⟩
  have hreach := TransitionSystem.reachable_of_runActions hinit hrun
  have hsteps : taskSystem.Steps s s' := .step .refl hstep
  exact ⟨s, s', hreach, hsteps, mutex_bounded_waiting hreach hqueue rfl hsteps⟩

/-- In every state of every run: the tasks that the reaper has freed, and then those in the dead
queue, are the tasks that have called `thread_exit`, in this order. Whenever the reaper has gone to
sleep it had freed all of them; and while one is in the queue it has the CPU or is in the ready
queue. -/
theorem reaper_buries (h : taskSystem.Reachable s) {dead : List Addr}
    (hdead : s.kernel.deadQ.Holds s.kernel.deadNext dead) :
    inOrder Event.reapedTask s.control.trace ++ dead = inOrder Event.exitedTask s.control.trace ∧
      (∀ post pre, s.control.trace = post ++ .slept :: pre →
        inOrder Event.reapedTask pre = inOrder Event.exitedTask pre) ∧
      (dead ≠ [] →
        (s.control.phase = .running ∧ s.kernel.currentTask = s.kernel.reaperTask) ∨
        ∃ ready, s.kernel.queue.Holds s.kernel.readyNext ready ∧ s.kernel.reaperTask ∈ ready) := by
  obtain ⟨a, hreach, hsim⟩ := taskSystem_simulated h
  have hburies := buries_of_reachable hreach
  have hinv := wellPlaced_of_reachable hreach
  obtain rfl := hdead.unique hsim.1.dead
  rw [hsim.2]
  refine ⟨hburies.order, hburies.slept, fun hne => ?_⟩
  have hmem := hinv.coherent.reaper_mem
  rw [hsim.1.current, hsim.1.reaper]
  cases hstate : a.state a.reaper with
  | blocked => exact absurd hstate (hburies.awake hne)
  | dead => exact absurd hstate hinv.coherent.reaper_alive
  | running =>
    obtain ⟨hphase, hcurrent⟩ := (hinv.coherent.running_iff _ hmem).mp hstate
    exact .inl ⟨hphase, hcurrent.symm⟩
  | ready => exact .inr ⟨a.ready, hsim.1.ready, (hinv.queued.ready.mem_iff _).mpr ⟨hmem, hstate⟩⟩

/-- Two tasks exit before the reaper gets the CPU. -/
theorem reaper_buries_two : ∃ s, taskSystem.Reachable s ∧
    inOrder Event.reapedTask s.control.trace ++ [30] =
      inOrder Event.exitedTask s.control.trace ∧
    inOrder Event.exitedTask s.control.trace = [20, 30] := by
  have hrun : ∃ s, TransitionSystem.runActions Sys.step
      [.createTask 20 0 0, .createTask 30 0 1, .schedule, .dispatch, .threadExit, .dispatch,
        .threadExit, .dispatch, .reaperRound] (Sys.init 10 0) = some s ∧
      s.kernel.deadQ.Holds s.kernel.deadNext [30] ∧
      inOrder Event.exitedTask s.control.trace = [20, 30] :=
    ⟨_, rfl, ⟨by decide, by decide, rfl, by decide, by decide⟩, rfl⟩
  obtain ⟨s, hrun, hdead, hexited⟩ := hrun
  have hinit : taskSystem.Reachable (Sys.init 10 0) := .init ⟨10, 0, by decide, rfl⟩
  have hreach := TransitionSystem.reachable_of_runActions hinit hrun
  exact ⟨s, hreach, (reaper_buries hreach hdead).1, hexited⟩

end Pelikan

end SystemsProjects

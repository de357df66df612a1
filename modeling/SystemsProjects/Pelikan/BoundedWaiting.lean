import SystemsProjects.Lib.Fifo
import SystemsProjects.Pelikan.TaskRefinement

/-!
# Waiting for the CPU

The ready queue is served first in, first out, over every stretch of a run: the tasks that
`schedule` switches to are those that were waiting, in their order, and then those that came later
(`Model.FirstInFirstOut`). No step lets anybody in ahead of them or takes one of them out.

- `ready_bounded_waiting`: who is at position `k` of the queue is dispatched next after exactly `k`
  dispatches of others.

One step either takes the task at the front, and that is a dispatch, or appends somebody, or
leaves the queue alone (`Step.firstInFirstOut`); the library `Fifo` makes a statement about
stretches of it. The kernel is brought in last, through the simulation: a stretch of its run is
one of the model.
-/

namespace SystemsProjects

namespace Pelikan

/-- The tasks that `schedule` has switched to, in this order. -/
def dispatchedTasks : List Event → List Addr
  | [] => []
  | .dispatched t :: trace => dispatchedTasks trace ++ [t]
  | _ :: trace => dispatchedTasks trace

/-- Who has been dispatched over two stretches of a run. -/
theorem dispatchedTasks_append (events trace : List Event) :
    dispatchedTasks (events ++ trace) = dispatchedTasks trace ++ dispatchedTasks events := by
  induction events with
  | nil => simp [dispatchedTasks]
  | cons e events ih =>
    cases e with
    | dispatched t => simp [dispatchedTasks, ih]
    | _ => simpa [dispatchedTasks] using ih

namespace Model

/-- Between two states the queue is served from the front and filled at the end. -/
def FirstInFirstOut (a a' : Model) : Prop :=
  ∃ events added, a'.control.trace = events ++ a.control.trace ∧
    dispatchedTasks events ++ a'.ready = a.ready ++ added

variable {a a' a'' : Model} {act : Action}

theorem FirstInFirstOut.refl (a : Model) : a.FirstInFirstOut a :=
  ⟨[], [], rfl, by simp [dispatchedTasks]⟩

theorem FirstInFirstOut.trans (h : a.FirstInFirstOut a') (h' : a'.FirstInFirstOut a'') :
    a.FirstInFirstOut a'' := by
  obtain ⟨events, added, htrace, hready⟩ := h
  obtain ⟨events', added', htrace', hready'⟩ := h'
  refine ⟨events' ++ events, added ++ added', ?_, ?_⟩
  · rw [htrace', htrace, List.append_assoc]
  · rw [dispatchedTasks_append, List.append_assoc, hready', ← List.append_assoc, hready,
      List.append_assoc]

/-- What a step that dispatches nobody does to the queue. -/
theorem FirstInFirstOut.of_event {e : Event} (added : List Addr)
    (htrace : a'.control.trace = e :: a.control.trace) (he : ∀ t, e ≠ .dispatched t)
    (hready : a'.ready = a.ready ++ added) : a.FirstInFirstOut a' := by
  refine ⟨[e], added, htrace, ?_⟩
  cases e with
  | dispatched t => exact absurd rfl (he t)
  | _ => simpa [dispatchedTasks] using hready

/-- Every step serves the queue from the front, or fills it at the end. -/
theorem Step.firstInFirstOut (hstep : a.Step act a') : a.FirstInFirstOut a' := by
  cases hstep with
  | create hcall hne hfresh => exact .of_event _ rfl nofun rfl
  | schedule hphase => exact ⟨[], [], rfl, by simp [dispatchedTasks]⟩
  | @dispatch task rest hphase hready =>
    refine ⟨[.dispatched task], [], rfl, ?_⟩
    show [] ++ [task] ++ rest = a.ready ++ []
    simp [hready]
  | timer hout => exact .of_event _ rfl nofun rfl
  | exitWaking hcall hreaper => exact .of_event _ rfl nofun rfl
  | exit hcall hreaper => exact .of_event [] rfl nofun (List.append_nil _).symm
  | acquire hlocks hfree => exact .of_event [] rfl nofun (List.append_nil _).symm
  | block hlocks howner => exact .of_event [] rfl nofun (List.append_nil _).symm
  | unlockWaking hcall hwait => exact .of_event _ rfl nofun rfl
  | unlock hcall hwait => exact .of_event [] rfl nofun (List.append_nil _).symm
  | reap hout hreaper hdead => exact .of_event [] rfl nofun (List.append_nil _).symm
  | sleep hout hreaper hdead => exact .of_event [] rfl nofun (List.append_nil _).symm

end Model

open Model

variable {s s' : Sys} {a : Model}

/-- A stretch of a run of the kernel is one of the model, and keeps to the queue. -/
theorem Simulates.firstInFirstOut (h : Simulates s a) (hreach : Model.system.Reachable a)
    (hsteps : taskSystem.Steps s s') :
    ∃ a', Model.system.Reachable a' ∧ Simulates s' a' ∧ a.FirstInFirstOut a' := by
  induction hsteps with
  | refl => exact ⟨a, hreach, h, .refl a⟩
  | step _ hstep ih =>
    obtain ⟨a₁, hreach₁, hsim₁, hfifo⟩ := ih
    obtain ⟨a', hstep', hsim'⟩ := hsim₁.step (wellPlaced_of_reachable hreach₁) hstep
    exact ⟨a', .step hreach₁ hstep', hsim', hfifo.trans hstep'.firstInFirstOut⟩

/-- From any moment of any run on: the task at position `k` of the ready queue is not dispatched
before `k` others are, those ahead of it in the order of the queue, and is the next one then. As
long as it has not been dispatched it waits in the queue, further in front. -/
theorem ready_bounded_waiting (hreach : taskSystem.Reachable s) {waiting : List Addr}
    (hqueue : s.kernel.queue.Holds s.kernel.readyNext waiting) {k : Nat} {t : Addr}
    (hk : waiting[k]? = some t) (hsteps : taskSystem.Steps s s') :
    ∃ events, s'.control.trace = events ++ s.control.trace ∧
      t ∉ (dispatchedTasks events).take k ∧
      (∀ j ≤ k, j < (dispatchedTasks events).length →
        (dispatchedTasks events)[j]? = waiting[j]?) ∧
      ((dispatchedTasks events).length ≤ k →
        ∃ left, s'.kernel.queue.Holds s'.kernel.readyNext left ∧
          left[k - (dispatchedTasks events).length]? = some t) := by
  obtain ⟨a, hareach, hsim⟩ := taskSystem_simulated hreach
  obtain ⟨a', -, hsim', events, added, htrace, hfifo⟩ := hsim.firstInFirstOut hareach hsteps
  obtain rfl := hqueue.unique hsim.1.ready
  have hnodup := (wellPlaced_of_reachable hareach).queued.ready.nodup
  have hlt : k < a.ready.length := (List.getElem?_eq_some_iff.mp hk).1
  refine ⟨events, ?_, Fifo.not_served_before hfifo hnodup hk, ?_, ?_⟩
  · rw [hsim'.2, hsim.2, htrace]
  · intro j hj hserved
    exact Fifo.served_in_order hfifo (by omega) hserved
  · intro hserved
    exact ⟨a'.ready, hsim'.1.ready, Fifo.waits_on hfifo hk hserved⟩

/-- Behind task 20, task 30 waits for one dispatch. -/
theorem ready_bounded_waiting_two : ∃ s s', taskSystem.Reachable s ∧ taskSystem.Steps s s' ∧
    ∃ events, s'.control.trace = events ++ s.control.trace ∧
      30 ∉ (dispatchedTasks events).take 1 ∧
      (∀ j ≤ 1, j < (dispatchedTasks events).length →
        (dispatchedTasks events)[j]? = [20, 30][j]?) ∧
      ((dispatchedTasks events).length ≤ 1 →
        ∃ left, s'.kernel.queue.Holds s'.kernel.readyNext left ∧
          left[1 - (dispatchedTasks events).length]? = some 30) := by
  have hrun : ∃ s s', TransitionSystem.runActions Sys.step
      [.createTask 20 0 0, .createTask 30 0 1, .schedule] (Sys.init 10 0) = some s ∧
      s.step .dispatch = some s' ∧ s.kernel.queue.Holds s.kernel.readyNext [20, 30] :=
    ⟨_, _, rfl, rfl, by decide, by decide, ⟨rfl, rfl⟩, by decide, by decide⟩
  obtain ⟨s, s', hrun, hstep, hqueue⟩ := hrun
  have hinit : taskSystem.Reachable (Sys.init 10 0) := .init ⟨10, 0, by decide, rfl⟩
  have hreach := TransitionSystem.reachable_of_runActions hinit hrun
  have hsteps : taskSystem.Steps s s' := .step .refl hstep
  exact ⟨s, s', hreach, hsteps, ready_bounded_waiting hreach hqueue rfl hsteps⟩

end Pelikan

end SystemsProjects

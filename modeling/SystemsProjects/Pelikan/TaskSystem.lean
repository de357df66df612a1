import Mathlib.Data.Finset.Basic
import Mathlib.Tactic.Simps.Basic
import SystemsProjects.Lib.Transition
import SystemsProjects.Pelikan.Scheduler

/-!
# Runs of the kernel

The kernel with any number of tasks as a transition system. A step is a stretch of code
that runs without another task in between: a dispatch, the timer interrupt of a task, a
call of `thread_exit`, `create_task` or `mutex_unlock`, a call of `mutex_lock` or its
return from `yield`, a round of the reaper. What the other code of a task does is not
looked at, so a task may make any of these calls next.

Beside the kernel's memory a state records where each task stands in its code, which
tasks exist, and the events so far.

The events say what is needed to state properties of runs: who was created, dispatched, woken,
reaped, and which call of `mutex_lock` has returned. No step reads them. `Disciplined` is a
condition on them, that only the owner of a mutex unlocks it.
-/

namespace SystemsProjects

namespace Pelikan

/-- Who has the CPU: `kmain` before it calls `schedule`, the loop of `schedule` about to
dispatch, or the current task. -/
inductive Phase where
  | boot
  | scheduling
  | running
  deriving DecidableEq

/-- Where a task stands in its code: behind the `yield` of `mutex_lock`, or elsewhere. -/
inductive Point where
  | outside
  | inLock (lock : Addr)
  deriving DecidableEq

/-- What has happened. -/
inductive Event where
  /-- `create_task` has returned the task. -/
  | created (task : Addr)
  /-- `schedule` has switched to the task. -/
  | dispatched (task : Addr)
  /-- The timer has taken the CPU from the task. -/
  | preempted (task : Addr)
  /-- The task has called `thread_exit`. -/
  | exited (task : Addr)
  /-- `mutex_lock` has returned to the task. -/
  | returned (task lock : Addr)
  /-- `mutex_lock` has put the task into the wait queue. -/
  | blocked (task lock : Addr)
  /-- The task has called `mutex_unlock`, which has woken `woken`, or null. -/
  | unlocked (task lock woken : Addr)
  /-- The reaper has freed the task. -/
  | reaped (task : Addr)
  /-- The reaper has gone to sleep. -/
  | slept
  deriving DecidableEq

/-- What is not in the kernel's memory. Events are listed from the last one on. -/
structure Control where
  phase : Phase
  point : Addr → Point
  unreaped : Finset Addr
  trace : List Event

/-- A state of a run. -/
structure Sys where
  kernel : Kernel
  control : Control

/-- Steps. -/
inductive Action where
  | createTask (task : Addr) (base id : BitVec 32)
  | schedule
  | dispatch
  | timer
  | threadExit
  | mutexLock (lock : Addr)
  | resumeLock
  | mutexUnlock (lock : Addr)
  | reaperRound
  deriving DecidableEq

namespace Control

/-- Append an event. -/
@[simps]
def record (c : Control) (e : Event) : Control := { c with trace := e :: c.trace }

/-- The CPU goes to the scheduler. -/
@[simps]
def toScheduler (c : Control) : Control := { c with phase := .scheduling }

/-- `create_task` has returned `task`. -/
@[simps]
def create (c : Control) (task : Addr) : Control :=
  { c with
    point := Function.update c.point task .outside
    unreaped := insert task c.unreaped
    trace := .created task :: c.trace }

/-- `schedule` has switched to `task`. -/
@[simps]
def dispatch (c : Control) (task : Addr) : Control :=
  { c with phase := .running, trace := .dispatched task :: c.trace }

/-- `mutex_lock` has returned to `task`. -/
@[simps]
def acquire (c : Control) (task lock : Addr) : Control :=
  { c with
    point := Function.update c.point task .outside
    trace := .returned task lock :: c.trace }

/-- `mutex_lock` has put `task` to sleep. -/
@[simps]
def block (c : Control) (task lock : Addr) : Control :=
  { c with
    phase := .scheduling
    point := Function.update c.point task (.inLock lock)
    trace := .blocked task lock :: c.trace }

/-- The reaper has freed `task`. -/
@[simps]
def reap (c : Control) (task : Addr) : Control :=
  { c with unreaped := c.unreaped.erase task, trace := .reaped task :: c.trace }

attribute [grind =]
  record_phase record_point record_unreaped record_trace
  toScheduler_phase toScheduler_point toScheduler_unreaped toScheduler_trace
  create_phase create_point create_unreaped create_trace
  dispatch_phase dispatch_point dispatch_unreaped dispatch_trace
  acquire_phase acquire_point acquire_unreaped acquire_trace
  block_phase block_point block_unreaped block_trace
  reap_phase reap_point reap_unreaped reap_trace

end Control

namespace Sys

/-- The task has the CPU and stands outside `mutex_lock`. -/
def Outside (s : Sys) : Prop :=
  s.control.phase = .running ∧ s.control.point s.kernel.currentTask = .outside

instance (s : Sys) : Decidable s.Outside := inferInstanceAs (Decidable (_ ∧ _))

/-- The current task is an ordinary one and may make a call. -/
def MayCall (s : Sys) : Prop := s.Outside ∧ s.kernel.currentTask ≠ s.kernel.reaperTask

instance (s : Sys) : Decidable s.MayCall := inferInstanceAs (Decidable (_ ∧ _))

/-- What `mutexLock` means for the run. -/
def lockStep (s : Sys) (lock : Addr) : Sys :=
  let me := s.kernel.currentTask
  let (returned, kernel) := Pelikan.mutexLock s.kernel lock
  { kernel, control := if returned then s.control.acquire me lock else s.control.block me lock }

/-- The step function. `create_task` gets memory that no task is using. -/
def step (s : Sys) : Action → Option Sys
  | .createTask task base id =>
    if (s.control.phase = .boot ∨ s.MayCall) ∧ task ≠ 0 ∧ task ∉ s.control.unreaped then
      some { kernel := Pelikan.createTask s.kernel task base id 0
             control := s.control.create task }
    else none
  | .schedule =>
    if s.control.phase = .boot then some { s with control := s.control.toScheduler } else none
  | .dispatch =>
    if s.control.phase = .scheduling then
      match scheduleDispatch s.kernel with
      | none => none
      | some kernel => some { kernel, control := s.control.dispatch kernel.currentTask }
    else none
  | .timer =>
    if s.Outside then
      some {
        kernel := yield s.kernel
        control := (s.control.record (.preempted s.kernel.currentTask)).toScheduler }
    else none
  | .threadExit =>
    if s.MayCall then
      some {
        kernel := Pelikan.threadExit s.kernel
        control := (s.control.record (.exited s.kernel.currentTask)).toScheduler }
    else none
  | .mutexLock lock => if s.MayCall then some (s.lockStep lock) else none
  | .resumeLock =>
    if s.control.phase = .running then
      match s.control.point s.kernel.currentTask with
      | .outside => none
      | .inLock lock => some (s.lockStep lock)
    else none
  | .mutexUnlock lock =>
    if s.MayCall then
      let (woken, kernel) := Pelikan.mutexUnlock s.kernel lock
      some { kernel, control := s.control.record (.unlocked s.kernel.currentTask lock woken) }
    else none
  | .reaperRound =>
    if s.Outside ∧ s.kernel.currentTask = s.kernel.reaperTask then
      let (corpse, kernel) := Pelikan.reaperRound s.kernel
      if corpse = 0 then some { kernel, control := (s.control.record .slept).toScheduler }
      else some { kernel, control := s.control.reap corpse }
    else none

/-- `kmain` has called `spawn_reaper`, and `kmalloc` has returned `reaper`. -/
def init (reaper : Addr) (base : BitVec 32) : Sys where
  kernel := spawnReaper .zero reaper base
  control := { phase := .boot, point := fun _ => .outside, unreaped := {reaper}, trace := [] }

/-- The state behind `spawn_reaper`. -/
def Initial (s : Sys) : Prop := ∃ reaper base, reaper ≠ 0 ∧ s = init reaper base

end Sys

/-- The runs of the kernel. -/
def taskSystem : TransitionSystem Sys Action := .ofFunction Sys.Initial Sys.step

/-! ## What the events say -/

/-- The task has called `thread_exit`, and its memory was not given to a new task since. -/
def Died : List Event → Addr → Prop
  | [], _ => False
  | .exited u :: trace, t => u = t ∨ Died trace t
  | .created u :: trace, t => u ≠ t ∧ Died trace t
  | _ :: trace, t => Died trace t

/-- `mutex_lock` has returned to the task, which has not called `mutex_unlock` since. -/
def HasLock : List Event → Addr → Addr → Prop
  | [], _, _ => False
  | .returned u n :: trace, t, m => (u = t ∧ n = m) ∨ HasLock trace t m
  | .unlocked u n _ :: trace, t, m => ¬(u = t ∧ n = m) ∧ HasLock trace t m
  | _ :: trace, t, m => HasLock trace t m

/-- The task that `mutex_lock` has returned to last. -/
def lastReturned : List Event → Addr → Option Addr
  | [], _ => none
  | .returned u n :: trace, m => if n = m then some u else lastReturned trace m
  | _ :: trace, m => lastReturned trace m

/-- `mutex_unlock` was called by the task that `mutex_lock` had returned to last only. -/
def Disciplined : List Event → Prop
  | [] => True
  | .unlocked u n _ :: trace => lastReturned trace n = some u ∧ Disciplined trace
  | _ :: trace => Disciplined trace

/-- `mutex_unlock` has taken the task out of the wait queue, and it has not been put back
since. -/
def Woken : List Event → Addr → Addr → Prop
  | [], _, _ => False
  | .unlocked _ n u :: trace, t, m => (u = t ∧ n = m) ∨ Woken trace t m
  | .blocked u n :: trace, t, m => ¬(u = t ∧ n = m) ∧ Woken trace t m
  | _ :: trace, t, m => Woken trace t m

end Pelikan

end SystemsProjects

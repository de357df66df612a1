import SystemsProjects.Lib.Operations
import SystemsProjects.Pelikan.Scheduler

/-!
# First in, first out (`scheduler.c`, `mutex_lock.c`)

The ready queue, the dead queue and the wait queue of a mutex, with their add and remove functions
called in any order, against three lists.

- `taskQueues`: the functions on the kernel's memory. `fifos`: the same on lists.
- `Threaded`: what the head, the tail and the links of a queue say about a list.
- `OnlyOwn`: a call leaves the links of the other queues alone.
- `taskQueues_fifo`: the queues do what the lists do.

The three pairs of functions in the source are one pair with other fields. `addTo_self` and
`removeFrom_self` say so once, and from there on the library's lemmas about intrusive queues
apply. Each of the three queues has a link field of its own, and so a call on one of them leaves
the others alone.
-/

namespace SystemsProjects

namespace Pelikan

/-- The ready queue, the dead queue, and the wait queue of a mutex. -/
inductive TaskQueue where
  | ready
  | dead
  | wait
  deriving DecidableEq

/-- A call of one of the six functions. -/
inductive QueueCall where
  | add (q : TaskQueue) (task : Addr)
  | remove (q : TaskQueue)

/-- The queue that a call is about. -/
def QueueCall.queue : QueueCall → TaskQueue
  | .add q _ | .remove q => q

namespace Kernel

section

variable (k : Kernel) (lock : Addr)

/-- `queue_head` and `queue_tail`, or `dead_head` and `dead_tail`. -/
def ends : TaskQueue → Queue Addr
  | .ready => k.queue
  | .dead => k.deadQ
  | .wait => (k.mutexes lock).queue

/-- The field that links the tasks in the queue. -/
def link : TaskQueue → Addr → Addr
  | .ready => k.readyNext
  | .dead => k.deadNext
  | .wait => k.mutexWaitNext

/-- The three functions that add a task. -/
def addTo (task : Addr) : TaskQueue → Kernel
  | .ready => addTaskToReadyQueue k task
  | .dead => addTaskToDeadQueue k task
  | .wait => addTaskToMutexQueue k task lock

/-- The three functions that remove one. -/
def removeFrom : TaskQueue → Addr × Kernel
  | .ready => removeTaskFromReadyQueue k
  | .dead => removeTaskFromDeadQueue k
  | .wait => removeTaskFromMutexQueue k lock

end

variable {k : Kernel} {lock task : Addr} {q q' : TaskQueue}

/-- The three functions are one, on the ends and the links of their queue. -/
theorem addTo_self : ((k.addTo lock task q).ends lock q, (k.addTo lock task q).link q) =
    (k.ends lock q).add (k.link q) task := by
  cases q with
  | ready | dead => rfl
  | wait =>
    show ((Function.update k.mutexes lock _ lock).queue, _) = _
    rw [Function.update_self]
    rfl

/-- On its own queue a removal is that of the library. -/
theorem removeFrom_self : ((k.removeFrom lock q).1, (k.removeFrom lock q).2.ends lock q,
    (k.removeFrom lock q).2.link q) = (k.ends lock q).remove (k.link q) := by
  cases q with
  | ready | dead => rfl
  | wait =>
    show (_, (Function.update k.mutexes lock _ lock).queue, _) = _
    rw [Function.update_self]
    rfl

/-- An addition leaves the other queues alone. -/
theorem addTo_other (h : q' ≠ q) : (k.addTo lock task q).ends lock q' = k.ends lock q' ∧
    (k.addTo lock task q).link q' = k.link q' := by
  cases q <;> cases q' <;> first | exact absurd rfl h | exact ⟨rfl, rfl⟩

theorem removeFrom_other (h : q' ≠ q) : (k.removeFrom lock q).2.ends lock q' = k.ends lock q' ∧
    (k.removeFrom lock q).2.link q' = k.link q' := by
  cases q <;> cases q' <;> first | exact absurd rfl h | exact ⟨rfl, rfl⟩

end Kernel

/-- The functions on the queues; a removal returns a task, or null. -/
def taskQueues (lock : Addr) : Operations Kernel QueueCall (Option Addr) where
  result k
    | .add _ _ => none
    | .remove q => some (k.removeFrom lock q).1
  next k
    | .add q task => k.addTo lock task q
    | .remove q => (k.removeFrom lock q).2

/-- Lists that are appended to, and whose first element is taken. -/
def fifos : Operations (TaskQueue → List Addr) QueueCall (Option Addr) where
  result tasks
    | .add _ _ => none
    | .remove q => some ((tasks q).head?.getD 0)
  next tasks
    | .add q task => Function.update tasks q (tasks q ++ [task])
    | .remove q => Function.update tasks q (tasks q).tail

/-- A task is added only while it is not in that queue. -/
def Addable (tasks : TaskQueue → List Addr) : QueueCall → Prop
  | .add q task => task ≠ 0 ∧ task ∉ tasks q
  | .remove _ => True

/-- The queue is this list, in its pointers. -/
structure Threaded (ends : Queue Addr) (link : Addr → Addr) (tasks : List Addr) : Prop where
  head_eq_zero : ends.head = 0 ↔ tasks = []
  tail_eq_zero : ends.tail = 0 ↔ tasks = []
  /-- Following the links from the head visits the tasks in their order. -/
  visits : List.iterate link ends.head tasks.length = tasks
  /-- The last of them is the tail, and nothing is linked behind it. -/
  last : tasks ≠ [] → tasks.getLast? = some ends.tail ∧ link ends.tail = 0

/-- Between these two states nothing has changed but one queue, and the links of its tasks. -/
structure OnlyOwn (lock : Addr) (q : TaskQueue) (tasks : List Addr) (k k' : Kernel) : Prop where
  ends : ∀ q', q' ≠ q → k'.ends lock q' = k.ends lock q'
  links : ∀ q', q' ≠ q → k'.link q' = k.link q'
  own : ∀ t, t ∉ tasks → k'.link q t = k.link q t
  mutexes : ∀ m, m ≠ lock → k'.mutexes m = k.mutexes m

section

variable {k : Kernel} {lock : Addr} {tasks : TaskQueue → List Addr} {call : QueueCall}

/-- The kernel's queues hold these lists. -/
def HoldsAll (lock : Addr) (k : Kernel) (tasks : TaskQueue → List Addr) : Prop :=
  ∀ q, (k.ends lock q).Holds (k.link q) (tasks q)

theorem HoldsAll.add {q : TaskQueue} {task : Addr} (h : HoldsAll lock k tasks) (hne : task ≠ 0)
    (hnew : task ∉ tasks q) :
    HoldsAll lock (k.addTo lock task q) (Function.update tasks q (tasks q ++ [task])) := by
  intro q'
  by_cases hq : q' = q
  · subst hq
    obtain ⟨hends, hlink⟩ := Prod.mk.inj (@Kernel.addTo_self k lock task q')
    rw [Function.update_self, hends, hlink]
    exact (h q').add hnew hne
  · obtain ⟨hends, hlink⟩ := @Kernel.addTo_other k lock task q q' hq
    rw [Function.update_of_ne hq, hends, hlink]
    exact h q'

/-- Nothing is taken from an empty queue, and from any other the first task. -/
theorem HoldsAll.remove (h : HoldsAll lock k tasks) (q : TaskQueue) :
    (k.removeFrom lock q).1 = (tasks q).head?.getD 0 ∧
      HoldsAll lock (k.removeFrom lock q).2 (Function.update tasks q (tasks q).tail) := by
  have hself := @Kernel.removeFrom_self k lock q
  have hown : (k.removeFrom lock q).1 = (tasks q).head?.getD 0 ∧
      ((k.removeFrom lock q).2.ends lock q).Holds ((k.removeFrom lock q).2.link q)
        (tasks q).tail := by
    have hq := h q
    generalize tasks q = l at hq ⊢
    cases l with
    | nil =>
      rw [hq.remove_nil] at hself
      obtain ⟨htask, hself⟩ := Prod.mk.inj hself
      obtain ⟨hends, hlink⟩ := Prod.mk.inj hself
      rw [hends, hlink]
      exact ⟨htask, hq⟩
    | cons a l =>
      obtain ⟨ends, hremove, hholds⟩ := hq.remove_cons
      rw [hremove] at hself
      obtain ⟨htask, hself⟩ := Prod.mk.inj hself
      obtain ⟨hends, hlink⟩ := Prod.mk.inj hself
      rw [hends, hlink]
      exact ⟨htask, hholds⟩
  refine ⟨hown.1, fun q' => ?_⟩
  -- the other queues have their own fields
  by_cases hq : q' = q
  · subst hq
    rw [Function.update_self]
    exact hown.2
  · obtain ⟨hends, hlink⟩ := @Kernel.removeFrom_other k lock q q' hq
    rw [Function.update_of_ne hq, hends, hlink]
    exact h q'

/-- One call. -/
theorem HoldsAll.step (h : HoldsAll lock k tasks) (hadd : Addable tasks call) :
    (taskQueues lock).result k call = fifos.result tasks call ∧
      HoldsAll lock ((taskQueues lock).next k call) (fifos.next tasks call) := by
  cases call with
  | add q task => exact ⟨rfl, h.add hadd.1 hadd.2⟩
  | remove q => exact ⟨congrArg some (h.remove q).1, (h.remove q).2⟩

/-- Each queue is threaded through its own links. -/
theorem HoldsAll.threaded (h : HoldsAll lock k tasks) (q : TaskQueue) :
    Threaded (k.ends lock q) (k.link q) (tasks q) where
  head_eq_zero := (h q).head_eq_zero_iff
  tail_eq_zero := (h q).tail_eq_zero_iff
  visits := (h q).iterate.1
  last hne := (h q).last hne

/-! ## Other queues -/

theorem addTo_mutexes {m : Addr} {task : Addr} {q : TaskQueue} (h : m ≠ lock) :
    (k.addTo lock task q).mutexes m = k.mutexes m := by
  cases q with
  | ready | dead => rfl
  | wait => exact Function.update_of_ne h ..

theorem removeFrom_mutexes {m : Addr} {q : TaskQueue} (h : m ≠ lock) :
    (k.removeFrom lock q).2.mutexes m = k.mutexes m := by
  cases q with
  | ready | dead => rfl
  | wait => exact Function.update_of_ne h ..

/-- A removal writes the link of the task that it removes. -/
theorem HoldsAll.removeFrom_link {q : TaskQueue} {t : Addr} (h : HoldsAll lock k tasks)
    (ht : t ∉ tasks q) : (k.removeFrom lock q).2.link q t = k.link q t := by
  have hself := @Kernel.removeFrom_self k lock q
  have hq := h q
  generalize tasks q = l at hq ht
  cases l with
  | nil =>
    rw [hq.remove_nil] at hself
    exact congrFun (congrArg (fun r => r.2.2) hself) t
  | cons a l =>
    obtain ⟨ends, hremove, -⟩ := hq.remove_cons
    have hne : t ≠ a := fun heq => ht (heq ▸ List.mem_cons_self ..)
    rw [hremove] at hself
    have hlink := congrFun (congrArg (fun r => r.2.2) hself) t
    exact hlink.trans (Function.update_of_ne hne ..)

/-- A call writes the links of its own queue only. -/
theorem HoldsAll.onlyOwn (h : HoldsAll lock k tasks) (call : QueueCall) :
    OnlyOwn lock call.queue (tasks call.queue ++ fifos.next tasks call call.queue) k
      ((taskQueues lock).next k call) := by
  cases call with
  | add q task =>
    refine ⟨fun q' hq => (Kernel.addTo_other hq).1, fun q' hq => (Kernel.addTo_other hq).2,
      fun t ht => ?_, fun m hm => addTo_mutexes hm⟩
    have hnext : fifos.next tasks (.add q task) q = tasks q ++ [task] := Function.update_self ..
    rw [QueueCall.queue, hnext] at ht
    have hlink := (Prod.mk.inj (@Kernel.addTo_self k lock task q)).2
    have hout : t ∉ tasks q ∧ t ≠ task := by simpa using ht
    show (k.addTo lock task q).link q t = k.link q t
    rw [hlink]
    exact (h q).add_frame hout.1 hout.2
  | remove q =>
    refine ⟨fun q' hq => (Kernel.removeFrom_other hq).1,
      fun q' hq => (Kernel.removeFrom_other hq).2, fun t ht => ?_,
      fun m hm => removeFrom_mutexes hm⟩
    exact h.removeFrom_link fun hmem => ht (List.mem_append_left _ hmem)

end

/-- The ready queue, the dead queue and the wait queue of a mutex, empty at first and called in any
order, return what three lists return; their pointers lead through these lists; and one more call
on one of them leaves the others alone. -/
theorem taskQueues_fifo {k : Kernel} {lock : Addr} (hempty : ∀ q, k.ends lock q = ⟨0, 0⟩)
    {calls : List QueueCall} (hadds : fifos.Admits Addable (fun _ => []) calls) :
    ((taskQueues lock).run k calls).1 = (fifos.run (fun _ => []) calls).1 ∧
    (∀ q, Threaded (((taskQueues lock).run k calls).2.ends lock q)
      (((taskQueues lock).run k calls).2.link q) ((fifos.run (fun _ => []) calls).2 q)) ∧
    ∀ call, OnlyOwn lock call.queue
      ((fifos.run (fun _ => []) calls).2 call.queue ++
        fifos.next (fifos.run (fun _ => []) calls).2 call call.queue)
      ((taskQueues lock).run k calls).2
      ((taskQueues lock).next ((taskQueues lock).run k calls).2 call) := by
  have hstart : HoldsAll lock k fun _ => [] := fun q => by
    rw [hempty q]
    exact Queue.holds_empty _
  obtain ⟨hresults, hholds⟩ :=
    Operations.run_refines (fun _ _ _ h hadd => HoldsAll.step h hadd) hstart hadds
  exact ⟨hresults, hholds.threaded, hholds.onlyOwn⟩

/-- Task 20 is in two queues at once, and goes back into the one that it was taken from. -/
def requeued : List QueueCall :=
  [.add .ready 20, .add .wait 20, .add .ready 30, .remove .ready, .add .ready 20, .remove .ready]

theorem taskQueues_fifo_requeued :
    ((taskQueues 7).run .zero requeued).1 = [none, none, none, some 20, none, some 30] ∧
      Threaded (((taskQueues 7).run .zero requeued).2.ends 7 .ready)
        (((taskQueues 7).run .zero requeued).2.link .ready) [20] := by
  have hempty : ∀ q, Kernel.zero.ends 7 q = ⟨0, 0⟩ := fun q => by cases q <;> rfl
  have hadds : fifos.Admits Addable (fun _ => []) requeued :=
    ⟨⟨by decide, by decide⟩, ⟨by decide, by decide⟩, ⟨by decide, by decide⟩, trivial,
      ⟨by decide, by decide⟩, trivial, trivial⟩
  obtain ⟨hresults, hthreaded, -⟩ := taskQueues_fifo hempty hadds
  exact ⟨hresults, hthreaded .ready⟩

end Pelikan

end SystemsProjects

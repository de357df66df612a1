import Mathlib.Algebra.GroupWithZero.Nat
import SystemsProjects.Lib.LinkedQueue

/-!
# Tasks, the scheduler and mutexes (`scheduler.c`, `mutex_lock.c`)

A `task_t` is known by its address, and the null pointer is 0. The kernel's memory is
kept field by field: `state t` is `t->state`. What `kmalloc` and `pmm_alloc_contiguous`
return to `create_task` is passed in; the saved registers, the page tables and the
screen are left out.

`swtch` splits a function in two. `schedule` is cut into the part up to `swtch`
(`scheduleDispatch`) and the part behind it (`scheduleResume`), so `yield` is
`scheduleResume`: what runs until the scheduler is about to dispatch again. `mutexLock`
goes once through the loop of `mutex_lock`. It is both the call and what follows the
return from `yield`, since the loop tests `locked` again either way.

A null pointer can be followed, as on the machine, where it leads to the memory at address 0:
`remove_task_from_circular_list` writes there when the task is on no list.
-/

namespace SystemsProjects

namespace Pelikan

/-- The address of a `task_t` or a `mutex_t`. -/
abbrev Addr := Nat

/-- `TASK_BLOCKED`, `TASK_READY`, `TASK_RUNNING`, `TASK_DEAD`: 0, 1, 2, 3. -/
inductive TaskState where
  | blocked
  | ready
  | running
  | dead
  deriving DecidableEq

/-- `mutex_t` -/
structure Mutex where
  locked : Int
  holder : Addr
  queue : Queue Addr

/-- `mutex_init` -/
def mutexInit : Mutex := { locked := 0, holder := 0, queue := ⟨0, 0⟩ }

/-- The fields of all tasks, the mutexes, and the globals of `scheduler.c`. -/
structure Kernel where
  state : Addr → TaskState
  stackBase : Addr → BitVec 32
  id : Addr → BitVec 32
  next : Addr → Addr
  prev : Addr → Addr
  readyNext : Addr → Addr
  mutexWaitNext : Addr → Addr
  deadNext : Addr → Addr
  mutexes : Addr → Mutex
  numOfTasks : Int
  lastInserted : Addr
  currentTask : Addr
  reaperTask : Addr
  queue : Queue Addr
  deadQ : Queue Addr

/-- The kernel before its first task. -/
def Kernel.zero : Kernel where
  state _ := .blocked
  stackBase _ := 0
  id _ := 0
  next _ := 0
  prev _ := 0
  readyNext _ := 0
  mutexWaitNext _ := 0
  deadNext _ := 0
  mutexes _ := mutexInit
  numOfTasks := 0
  lastInserted := 0
  currentTask := 0
  reaperTask := 0
  queue := ⟨0, 0⟩
  deadQ := ⟨0, 0⟩

/-! ## The queues -/

/-- `add_task_to_ready_queue(&queue, task)` -/
def addTaskToReadyQueue (k : Kernel) (task : Addr) : Kernel :=
  let (queue, readyNext) := k.queue.add k.readyNext task
  { k with queue, readyNext }

/-- `remove_task_from_ready_queue(&queue)` -/
def removeTaskFromReadyQueue (k : Kernel) : Addr × Kernel :=
  let (task, queue, readyNext) := k.queue.remove k.readyNext
  (task, { k with queue, readyNext })

/-- `add_task_to_dead_queue(&dead_q, task)` -/
def addTaskToDeadQueue (k : Kernel) (task : Addr) : Kernel :=
  let (deadQ, deadNext) := k.deadQ.add k.deadNext task
  { k with deadQ, deadNext }

/-- `remove_task_from_dead_queue(&dead_q)` -/
def removeTaskFromDeadQueue (k : Kernel) : Addr × Kernel :=
  let (task, deadQ, deadNext) := k.deadQ.remove k.deadNext
  (task, { k with deadQ, deadNext })

/-- `add_task_to_mutex_queue` -/
def addTaskToMutexQueue (k : Kernel) (task lock : Addr) : Kernel :=
  let (queue, mutexWaitNext) := (k.mutexes lock).queue.add k.mutexWaitNext task
  { k with
    mutexes := Function.update k.mutexes lock { k.mutexes lock with queue }
    mutexWaitNext }

/-- `remove_task_from_mutex_queue` -/
def removeTaskFromMutexQueue (k : Kernel) (lock : Addr) : Addr × Kernel :=
  let (task, queue, mutexWaitNext) := (k.mutexes lock).queue.remove k.mutexWaitNext
  (task, { k with
    mutexes := Function.update k.mutexes lock { k.mutexes lock with queue }
    mutexWaitNext })

/-- `task->state = state` -/
def setState (k : Kernel) (task : Addr) (state : TaskState) : Kernel :=
  { k with state := Function.update k.state task state }

/-! ## The circular list -/

/-- `insert_task` -/
def insertTask (k : Kernel) (task : Addr) : Kernel :=
  if k.lastInserted ≠ 0 then
    let next := Function.update k.next task (k.next k.lastInserted)
    let prev := Function.update k.prev task k.lastInserted
    let prev := Function.update prev (next k.lastInserted) task
    let next := Function.update next k.lastInserted task
    { k with next, prev, lastInserted := task }
  else
    { k with
      next := Function.update k.next task task
      prev := Function.update k.prev task task
      lastInserted := task }

/-- `remove_task_from_circular_list` -/
def removeTaskFromCircularList (k : Kernel) (task : Addr) : Kernel :=
  let k :=
    if k.next task = task then { k with lastInserted := 0 }
    else
      let next := Function.update k.next (k.prev task) (k.next task)
      let prev := Function.update k.prev (next task) (k.prev task)
      let lastInserted := if k.lastInserted = task then next task else k.lastInserted
      { k with next, prev, lastInserted }
  { k with next := Function.update k.next task 0, prev := Function.update k.prev task 0 }

/-! ## Tasks -/

/-- `memset(task, 0, sizeof(task_t))` -/
def clearTask (k : Kernel) (task : Addr) : Kernel :=
  { k with
    state := Function.update k.state task .blocked
    stackBase := Function.update k.stackBase task 0
    id := Function.update k.id task 0
    next := Function.update k.next task 0
    prev := Function.update k.prev task 0
    readyNext := Function.update k.readyNext task 0
    mutexWaitNext := Function.update k.mutexWaitNext task 0
    deadNext := Function.update k.deadNext task 0 }

/-- The branches of `create_task` on `type`: the reaper (1) or an ordinary task (0). -/
def enterTask (k : Kernel) (task : Addr) (type : Int) : Kernel :=
  if type = 1 then { setState k task .blocked with reaperTask := task }
  else if type = 0 then addTaskToReadyQueue (setState k task .ready) task
  else k

/-- `create_task`, where `kmalloc` has returned `task` and `pmm_alloc_contiguous` has
returned `base`. -/
def createTask (k : Kernel) (task : Addr) (base id : BitVec 32) (type : Int) : Kernel :=
  let k := clearTask k task
  let k := { k with
    stackBase := Function.update k.stackBase task (base + 4096)
    id := Function.update k.id task id }
  let k := insertTask (enterTask k task type) task
  { k with numOfTasks := k.numOfTasks + 1 }

/-- `spawn_reaper` -/
def spawnReaper (k : Kernel) (task : Addr) (base : BitVec 32) : Kernel :=
  createTask k task base 99 1

/-! ## The scheduler -/

/-- The loop of `schedule` up to `swtch`. It goes round again, changing nothing, while
the ready queue is empty. -/
def scheduleDispatch (k : Kernel) : Option Kernel :=
  let (next, k) := removeTaskFromReadyQueue k
  if next = 0 then none
  else some { setState k next .running with currentTask := next }

/-- The loop of `schedule` behind `swtch`. -/
def scheduleResume (k : Kernel) : Kernel :=
  if k.state k.currentTask = .running then
    addTaskToReadyQueue (setState k k.currentTask .ready) k.currentTask
  else if k.state k.currentTask = .dead then
    let k := addTaskToDeadQueue k k.currentTask
    if k.state k.reaperTask = .blocked then
      addTaskToReadyQueue (setState k k.reaperTask .ready) k.reaperTask
    else k
  else k

/-- `yield` -/
def yield (k : Kernel) : Kernel := scheduleResume k

/-- `thread_exit` -/
def threadExit (k : Kernel) : Kernel := yield (setState k k.currentTask .dead)

/-- One round of the loop of `reaper_thread`: the corpse, or null when there is none and
the reaper has gone to sleep. -/
def reaperRound (k : Kernel) : Addr × Kernel :=
  let (corpse, k) := removeTaskFromDeadQueue k
  if corpse = 0 then (0, yield (setState k k.reaperTask .blocked))
  else (corpse, removeTaskFromCircularList k corpse)

/-! ## Mutexes -/

/-- The loop of `mutex_lock`, once: it returns with the lock, or it waits and yields. -/
def mutexLock (k : Kernel) (lock : Addr) : Bool × Kernel :=
  if (k.mutexes lock).locked ≠ 0 then
    let me := k.currentTask
    (false, yield (addTaskToMutexQueue (setState k me .blocked) me lock))
  else
    (true, { k with
      mutexes := Function.update k.mutexes lock
        { k.mutexes lock with locked := 1, holder := k.currentTask } })

/-- `mutex_unlock`, and the task it wakes, null when nobody waits. -/
def mutexUnlock (k : Kernel) (lock : Addr) : Addr × Kernel :=
  let k := { k with
    mutexes := Function.update k.mutexes lock { k.mutexes lock with locked := 0, holder := 0 } }
  if (k.mutexes lock).queue.head ≠ 0 then
    let (task, k) := removeTaskFromMutexQueue k lock
    (task, addTaskToReadyQueue (setState k task .ready) task)
  else (0, k)

/-! ## What stays while a task lives

Of the fields of a task and the globals, `create_task` alone writes those of `SameRecords`. -/

/-- The stacks, the reaper and the number of tasks are the same. -/
structure SameRecords (k k' : Kernel) : Prop where
  stackBase : k'.stackBase = k.stackBase
  reaperTask : k'.reaperTask = k.reaperTask
  numOfTasks : k'.numOfTasks = k.numOfTasks

namespace SameRecords

variable {k k' k'' : Kernel}

theorem trans (h : SameRecords k k') (h' : SameRecords k' k'') : SameRecords k k'' where
  stackBase := h'.stackBase.trans h.stackBase
  reaperTask := h'.reaperTask.trans h.reaperTask
  numOfTasks := h'.numOfTasks.trans h.numOfTasks

theorem insertTask (k : Kernel) (t : Addr) : SameRecords k (insertTask k t) := by
  unfold Pelikan.insertTask
  split
  · exact ⟨rfl, rfl, rfl⟩
  · exact ⟨rfl, rfl, rfl⟩

theorem removeTask (k : Kernel) (t : Addr) : SameRecords k (removeTaskFromCircularList k t) := by
  unfold removeTaskFromCircularList
  dsimp only
  split
  · exact ⟨rfl, rfl, rfl⟩
  · exact ⟨rfl, rfl, rfl⟩

theorem yield (k : Kernel) : SameRecords k (yield k) := by
  unfold Pelikan.yield scheduleResume
  split
  · exact ⟨rfl, rfl, rfl⟩
  · split
    · dsimp only
      split
      · exact ⟨rfl, rfl, rfl⟩
      · exact ⟨rfl, rfl, rfl⟩
    · exact ⟨rfl, rfl, rfl⟩

theorem dispatch (h : scheduleDispatch k = some k') : SameRecords k k' := by
  unfold scheduleDispatch at h
  dsimp only at h
  split at h
  · cases h
  · rw [← Option.some.inj h]
    exact ⟨rfl, rfl, rfl⟩

theorem threadExit (k : Kernel) : SameRecords k (threadExit k) := by
  refine SameRecords.trans ?_ (yield _)
  exact ⟨rfl, rfl, rfl⟩

/-- A round of the reaper takes a corpse, or blocks. -/
theorem reaperRound (k : Kernel) : SameRecords k (reaperRound k).2 := by
  unfold Pelikan.reaperRound
  dsimp only
  split
  · refine SameRecords.trans ?_ (yield _)
    exact ⟨rfl, rfl, rfl⟩
  · refine SameRecords.trans ?_ (removeTask ..)
    exact ⟨rfl, rfl, rfl⟩

theorem mutexLock (k : Kernel) (lock : Addr) : SameRecords k (mutexLock k lock).2 := by
  unfold Pelikan.mutexLock
  split
  · refine SameRecords.trans ?_ (yield _)
    exact ⟨rfl, rfl, rfl⟩
  · exact ⟨rfl, rfl, rfl⟩

/-- `mutex_unlock` writes the mutex and wakes one task at most. -/
theorem mutexUnlock (k : Kernel) (lock : Addr) : SameRecords k (mutexUnlock k lock).2 := by
  unfold Pelikan.mutexUnlock
  dsimp only
  split
  · exact ⟨rfl, rfl, rfl⟩
  · exact ⟨rfl, rfl, rfl⟩

end SameRecords

theorem insertTask_currentTask (k : Kernel) (t : Addr) :
    (insertTask k t).currentTask = k.currentTask := by
  unfold insertTask
  split
  · rfl
  · rfl

theorem removeTask_currentTask (k : Kernel) (t : Addr) :
    (removeTaskFromCircularList k t).currentTask = k.currentTask := by
  unfold removeTaskFromCircularList
  dsimp only
  split
  · rfl
  · rfl

/-- The branches of `create_task` on `type` may make the task the reaper. -/
theorem enterTask_records (k : Kernel) (t : Addr) (type : Int) :
    (enterTask k t type).stackBase = k.stackBase ∧
      (enterTask k t type).numOfTasks = k.numOfTasks := by
  unfold enterTask
  split
  · exact ⟨rfl, rfl⟩
  · split
    · exact ⟨rfl, rfl⟩
    · exact ⟨rfl, rfl⟩

/-- A new task has the stack it was given. -/
theorem createTask_stackBase (k : Kernel) (t : Addr) (base id : BitVec 32) (type : Int) :
    (createTask k t base id type).stackBase = Function.update k.stackBase t (base + 4096) := by
  unfold createTask
  dsimp only
  rw [(SameRecords.insertTask ..).stackBase, (enterTask_records ..).1]
  exact Function.update_idem ..

/-- A new task is counted. -/
theorem createTask_numOfTasks (k : Kernel) (t : Addr) (base id : BitVec 32) (type : Int) :
    (createTask k t base id type).numOfTasks = k.numOfTasks + 1 := by
  unfold createTask
  dsimp only
  rw [(SameRecords.insertTask ..).numOfTasks, (enterTask_records ..).2]
  rfl

end Pelikan

end SystemsProjects

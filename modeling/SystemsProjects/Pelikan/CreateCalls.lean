import SystemsProjects.Pelikan.Reaping

/-!
# Calls of `create_task`, piece by piece

`create_task` runs with interrupts on, when a task calls it. Here a call is cut into the two
allocations, `kmalloc` and `pmm_alloc_contiguous`, the part that ends with
`add_task_to_ready_queue`, and the part from `insert_task` on. The timer may come in an allocation,
and behind each of the parts. The reaper's rounds and the calls of the queue functions run with
interrupts off.

Neither allocator turns interrupts off. What it does behind a timer interrupt is left open: then it
may return anything, and leave the heap and the bitmap as it likes.

- `CreatePoint`: how far a call has come.
- `Creating`: the kernel, the heap, and the calls.
- `createSystem`: the runs of the kernel with calls cut this way.
- `createExec`: steps that can be computed.

The kernel's own steps are those of `TaskSystem`, on the same state; the allocators and the
releases are the functions of `heap.c` and `pmm.c`, on the heap and the bitmap of the state. Any
code may store anywhere but over the headers of the heap. The stores of the vmm into page tables
are such stores; a frame that `vmm_map_page` takes for a table is in the model (`Maps`).
-/

namespace SystemsProjects

namespace Pelikan

/-- The part of `create_task` that ends with the ready queue. -/
def publishTask (k : Kernel) (task : Addr) (base id : BitVec 32) : Kernel :=
  let k := clearTask k task
  let k := { k with
    stackBase := Function.update k.stackBase task (base + 4096)
    id := Function.update k.id task id }
  enterTask k task 0

/-- The part of `create_task` from `insert_task` on. -/
def linkTask (k : Kernel) (task : Addr) : Kernel :=
  let k := insertTask k task
  { k with numOfTasks := k.numOfTasks + 1 }

theorem linkTask_publishTask (k : Kernel) (task : Addr) (base id : BitVec 32) :
    linkTask (publishTask k task base id) task = createTask k task base id 0 := rfl

/-- How far a task, or `kmain`, has come in `create_task`. -/
inductive CreatePoint where
  | outside
  /-- In `kmalloc`; `true` when the timer has come there. -/
  | allocating (preempted : Bool)
  /-- `kmalloc` has returned the new task. -/
  | allocated (task : Addr)
  /-- In `pmm_alloc_contiguous`; `true` when the timer has come there. -/
  | reserving (task : Addr) (preempted : Bool)
  /-- `pmm_alloc_contiguous` has returned the guard and the stack. -/
  | reserved (task : Addr) (base : U32)
  /-- The ready queue has the new task. -/
  | published (task : Addr)
  deriving DecidableEq

namespace CreatePoint

/-- The call is in one of the allocators. -/
def inAllocator : CreatePoint → Bool
  | .allocating _ | .reserving .. => true
  | _ => false

/-- The point behind a timer interrupt. -/
def interrupted : CreatePoint → CreatePoint
  | .allocating _ => .allocating true
  | .reserving task _ => .reserving task true
  | p => p

/-- The `task_t` that the call alone knows. -/
def memory? : CreatePoint → Option Addr
  | .allocated task | .reserving task _ | .reserved task _ => some task
  | _ => none

/-- The frames that the call alone knows. -/
def frames : CreatePoint → Finset Nat
  | .reserved _ base => stackFrames (base + 4096)
  | _ => ∅

end CreatePoint

/-- The kernel with its memory, and the calls of `create_task`. The frames of page tables are
counted among those in use at first. -/
structure Creating extends Reaping where
  point : Addr → CreatePoint

/-- The parts of a call, the timer and the return in its allocations, and the kernel's other steps.
-/
inductive CreateAction where
  /-- A step of the scheduler, without the timer. -/
  | other (act : Action)
  | timer
  /-- A round of the reaper. `vmm_map_page` may need a new page table. -/
  | reaper (newTable : Bool)
  /-- Some code stores somewhere in its memory. -/
  | store
  | callKmalloc
  /-- `kmalloc` returns. -/
  | kmalloc
  | callContiguous
  /-- `pmm_alloc_contiguous` returns. -/
  | contiguous
  | publish (id : BitVec 32)
  | link
  deriving DecidableEq

namespace Creating

/-- Where the current task is. -/
def here (x : Creating) : CreatePoint := x.point x.sys.kernel.currentTask

/-- The current task goes to another point. -/
def goto (x : Creating) (p : CreatePoint) : Creating :=
  { x with point := Function.update x.point x.sys.kernel.currentTask p }

/-- `kmain`, or the current task, has the CPU. -/
def HasCpu (x : Creating) : Prop := x.sys.control.phase ≠ .scheduling

instance (x : Creating) : Decidable x.HasCpu := inferInstanceAs (Decidable (_ ≠ _))

/-- The blocks of the heap in use: the tasks, and those that calls know. -/
def Block (x : Creating) (p : Addr) : Prop :=
  p ∈ x.sys.control.unreaped ∨ ∃ t, (x.point t).memory? = some p

end Creating

/-- The bitmap behind `vmm_map_page`. -/
def Maps (b : Bitmap) (newTable : Bool) (b' : Bitmap) : Prop :=
  if newTable then ∃ frame, pmmAllocFrame b = .ok (frame, b') else b' = b

/-- What each part does. Behind a timer interrupt an allocation may leave anything. -/
inductive CreateStep : Creating → CreateAction → Creating → Prop where
  | other {x : Creating} {sys : Sys} {act : Action} (hother : act.Other) (htimer : act ≠ .timer)
      (hhere : act = .dispatch ∨ x.here = .outside) (hstep : x.sys.step act = some sys) :
      CreateStep x (.other act) { x with sys }
  | timer {x : Creating} {sys : Sys} {heap : Heap} {heapFrames : Set Nat}
      (hstep : x.sys.step .timer = some sys)
      (hheap : x.here.inAllocator = false → heap = x.heap ∧ heapFrames = x.heapFrames) :
      CreateStep x .timer { x.goto x.here.interrupted with sys, heap, heapFrames }
  | sleep {x : Creating} {sys : Sys} {newTable : Bool} (hhere : x.here = .outside)
      (hstep : x.sys.step .reaperRound = some sys) (hnone : (reaperRound x.sys.kernel).1 = 0) :
      CreateStep x (.reaper newTable) { x with sys }
  | reap {x : Creating} {sys : Sys} {newTable : Bool} {b : Bitmap} {corpse : Addr} {heap : Heap}
      (hhere : x.here = .outside) (hstep : x.sys.step .reaperRound = some sys)
      (hcorpse : (reaperRound x.sys.kernel).1 = corpse) (hne : corpse ≠ 0)
      (hmaps : Maps x.heap.bitmap newTable b)
      (hrelease : releaseTask (x.heap.withBitmap b) (x.sys.kernel.stackBase corpse) corpse =
        .ok heap) :
      CreateStep x (.reaper newTable) { x with
        sys, heap, usedFirst := x.usedFirst ∪ (usedFrames b \ usedFrames x.heap.bitmap) }
  | store {x : Creating} {mem : ByteMemory}
      (hmem : ∀ a, a / 4096 ∈ x.heapFrames → (∀ t, x.Block t → a < t ∨ t + taskSize ≤ a) →
        mem a = x.heap.mem a) :
      CreateStep x .store { x with heap := { x.heap with mem } }
  | callKmalloc {x : Creating} (hcall : x.sys.control.phase = .boot ∨ x.sys.MayCall)
      (hhere : x.here = .outside) : CreateStep x .callKmalloc (x.goto (.allocating false))
  | kmalloc {x : Creating} {task : Addr} {h : Heap} (hcpu : x.HasCpu)
      (hhere : x.here = .allocating false) (hcall : Yields (kmalloc x.heap taskSize) (task, h)) :
      CreateStep x .kmalloc { x.goto (.allocated task) with
        heap := h
        heapFrames := x.heapFrames ∪ (usedFrames h.bitmap \ usedFrames x.heap.bitmap) }
  | kmallocPreempted {x : Creating} {task : Addr} {heap : Heap} {heapFrames : Set Nat}
      (hcpu : x.HasCpu) (hhere : x.here = .allocating true) :
      CreateStep x .kmalloc { x.goto (.allocated task) with heap, heapFrames }
  | callContiguous {x : Creating} {task : Addr} (hcpu : x.HasCpu)
      (hhere : x.here = .allocated task) :
      CreateStep x .callContiguous (x.goto (.reserving task false))
  | contiguous {x : Creating} {task : Addr} {base : U32} {b : Bitmap} (hcpu : x.HasCpu)
      (hhere : x.here = .reserving task false)
      (hcall : pmmAllocContiguous x.heap.bitmap 2 = .ok (base, b)) :
      CreateStep x .contiguous { x.goto (.reserved task base) with heap := x.heap.withBitmap b }
  | contiguousPreempted {x : Creating} {task : Addr} {base : U32} {b : Bitmap} (hcpu : x.HasCpu)
      (hhere : x.here = .reserving task true) :
      CreateStep x .contiguous { x.goto (.reserved task base) with heap := x.heap.withBitmap b }
  /-- Up to the return of `add_task_to_ready_queue`. -/
  | publish {x : Creating} {task : Addr} {base id : U32} (hcpu : x.HasCpu)
      (hhere : x.here = .reserved task base) :
      CreateStep x (.publish id) { x.goto (.published task) with
        sys := { kernel := publishTask x.sys.kernel task base id
                 control := x.sys.control.create task } }
  /-- From `insert_task` on. -/
  | link {x : Creating} {task : Addr} (hcpu : x.HasCpu) (hhere : x.here = .published task) :
      CreateStep x .link { x.goto .outside with
        sys := { x.sys with kernel := linkTask x.sys.kernel task } }

/-- The state behind `spawn_reaper`. -/
structure Creating.Initial (x : Creating) : Prop where
  reaping : x.toReaping.Initial
  point_eq : ∀ t, x.point t = .outside

end Pelikan

end SystemsProjects

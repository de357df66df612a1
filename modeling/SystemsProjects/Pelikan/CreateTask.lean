import SystemsProjects.Lib.WordStack
import SystemsProjects.Pelikan.Reaping
import SystemsProjects.Pelikan.Vmm

/-!
# `create_task` with everything it touches

`create_task` makes five changes one after the other: `kmalloc`, `pmm_alloc_contiguous`,
`vmm_unmap_page` of the guard, the first stack of the task, and the queue and the circular list of
the scheduler. It tests none of the results.

The words of the `task_t` that the scheduler works with are those of `kernel`. The memory holds the
others, the saved `ESP`, `EIP` and `page_directory`.

- `createTaskCall_returns`: where `kmalloc` returns, so does `create_task`, with one task more.
- `createTask_failure_iff`: a call whose allocations fail leaves the system as it was exactly where
  `kmalloc` does not return.

There is one number for "no memory" in each allocator, and `create_task` looks at neither. So
the question whether a failed call is harmless comes down to whether it gets past `kmalloc` at
all; where it does, there is one task more, and `get_num_of_tasks` says so.
`createTask_failure_disturbs` shows what the two failures leave behind.
-/

namespace SystemsProjects

namespace Pelikan

open ByteMemory

/-- The memory with the heap and the frames, the page tables, and the scheduler. -/
structure Tasking where
  heap : Heap
  paging : Paging
  kernel : Kernel

/-- The `task_t` and the stack that `create_task` writes: `EIP` and `page_directory`, the words that
`swtch` will pop, and `ESP` behind them. -/
def writeTask (m : ByteMemory) (task directory : Nat) (stackBase code : U32) : ByteMemory :=
  let m := setWord m task (stackBase + 4096).toNat
  let m := setWord m (task + 4) code.toNat
  let m := setWord m (task + 8) directory
  let stack := WordStack.pushes ⟨stackBase + 4096, m⟩ [code, 0x202, 0, 0, 0, 0]
  setWord stack.mem task stack.top.toNat

/-- `create_task` behind its two allocations, which have returned `task` and `base`. -/
def buildTask (s : Tasking) (h : Heap) (task : Addr) (base code id : U32) (type : Int) : Tasking :=
  let (h, paging) := vmmUnmapPage h s.paging base.toNat
  let mem := writeTask h.mem task paging.directory (base + 4096) code
  ⟨{ h with mem }, paging, createTask s.kernel task base id type⟩

/-- `create_task` -/
def createTaskCall (s : Tasking) (code id : U32) (type : Int) (n : Nat) :
    Fueled HeapStop (Addr × Tasking) :=
  match kmalloc s.heap taskSize n with
  | .stop e => .stop e
  | .out => .out
  | .done (task, h) =>
    let h := { h with mem := memset h.mem task 0 taskSize }
    match pmmAllocContiguous h.bitmap 2 with
    | .error e => .stop (.pmm e)
    | .ok (base, bitmap) => .done (task, buildTask s { h with bitmap } task base code id type)

/-! ## What is promised -/

/-- `kmalloc` finds no block for a `task_t`, and gets no frame that `request_space` could use. -/
def NoTask (h : Heap) : Prop :=
  (∀ b, OnList h b → ¬ FitsAt h taskSize b) ∧
    ∀ frame bitmap, pmmAllocFrame h.bitmap = .ok (frame, bitmap) → frame = noFrame ∨ frame = 0

/-- There are no two frames in a row for the guard and the stack. -/
def NoStack (h : Heap) : Prop :=
  ∃ n task h' bitmap, kmalloc h taskSize n = .done (task, h') ∧
    pmmAllocContiguous h'.bitmap 2 = .ok (noFrame, bitmap)

/-- The byte belongs to a block on the list. -/
def InHeap (h : Heap) (a : Nat) : Prop :=
  ∃ b, OnList h b ∧ b ≤ a ∧ a < b + blockSize + h.get b .size

/-- An entry of the page directory, and an entry of the table that it names. -/
def pageEntry (s : Tasking) (i j : Nat) : Nat × Nat :=
  let entry := word s.heap.mem (s.paging.directory + 4 * i)
  (entry, word s.heap.mem (tableOf entry + 4 * j))

/-- The system as it was, but for what `kmalloc` has done, which has left the heap `h`. -/
structure Undisturbed (s : Tasking) (h : Heap) (task : Addr) (s' : Tasking) : Prop where
  queue : s'.kernel.queue = s.kernel.queue ∧
    ∀ t, t ≠ task → s'.kernel.readyNext t = s.kernel.readyNext t
  ring : s'.kernel.lastInserted = s.kernel.lastInserted ∧
    ∀ t, t ≠ task → s'.kernel.next t = s.kernel.next t ∧ s'.kernel.prev t = s.kernel.prev t
  numOfTasks : s'.kernel.numOfTasks = s.kernel.numOfTasks
  bitmap : s'.heap.bitmap = h.bitmap
  entries : ∀ i j, i < 1024 → j < 1024 → pageEntry s' i j = pageEntry s i j
  memory : ∀ a, a < 4294967296 → ¬ InHeap s'.heap a → s'.heap.mem a = s.heap.mem a

/-- A call for an ordinary task leaves the system as it was, if it returns. -/
def CreatesNothing (s : Tasking) (code id : U32) : Prop :=
  ∀ n task h s', kmalloc s.heap taskSize n = .done (task, h) →
    createTaskCall s code id 0 n = .done (task, s') → Undisturbed s h task s'

section

variable {s : Tasking} {h : Heap} {task : Addr} {code id : U32} {n : Nat}

/-- `create_task` goes on with whatever the allocations have returned. -/
theorem createTaskCall_eq {base : U32} {bitmap : Bitmap} (code id : U32) (type : Int)
    (hcall : kmalloc s.heap taskSize n = .done (task, h))
    (halloc : pmmAllocContiguous h.bitmap 2 = .ok (base, bitmap)) :
    createTaskCall s code id type n = .done (task,
      buildTask s
        { h with mem := memset h.mem task 0 taskSize, bitmap } task base code id type) := by
  unfold createTaskCall
  rw [hcall]
  dsimp only
  rw [halloc]

/-- Where `kmalloc` returns, the call returns and counts a task, whatever it got. -/
theorem createTaskCall_returns (code id : U32) (type : Int)
    (hcall : kmalloc s.heap taskSize n = .done (task, h)) :
    ∃ s', createTaskCall s code id type n = .done (task, s') ∧
      s'.kernel.numOfTasks = s.kernel.numOfTasks + 1 := by
  have hcontiguous : ∃ base bitmap, pmmAllocContiguous h.bitmap 2 = .ok (base, bitmap) := by
    rcases pmmAllocContiguous_spec h.bitmap (n := 2) (by decide) with
      ⟨f, bitmap, halloc, -⟩ | ⟨halloc, -⟩
    · exact ⟨_, _, halloc⟩
    · exact ⟨_, _, halloc⟩
  obtain ⟨base, bitmap, halloc⟩ := hcontiguous
  exact ⟨_, createTaskCall_eq code id type hcall halloc, createTask_numOfTasks ..⟩

/-- Where `kmalloc` returns, the call leaves its traces. -/
theorem not_createsNothing {r : Nat × Heap} (hcall : kmalloc s.heap taskSize n = .done r) :
    ¬ CreatesNothing s code id := by
  intro hnothing
  obtain ⟨task, h⟩ := r
  obtain ⟨s', hcreate, hcount⟩ := createTaskCall_returns code id 0 hcall
  have hsame := (hnothing n task h s' hcall hcreate).numOfTasks
  omega

/-- A failed call leaves the system as it was exactly where it does not return from `kmalloc`. -/
theorem createTask_failure_iff :
    (NoTask s.heap ∨ NoStack s.heap → CreatesNothing s code id) ↔
      (NoTask s.heap ∨ NoStack s.heap → NeverReturns s.heap taskSize) := by
  have hsize : taskSize ≤ 4096 - blockSize := by decide
  have hreturns := kmalloc_returns_iff (h := s.heap) (by decide) hsize
  refine forall_congr' fun _ => ?_
  constructor
  · intro hnothing
    by_contra hnever
    obtain ⟨n, r, hcall⟩ := hreturns.mpr hnever
    exact not_createsNothing hcall hnothing
  · intro hnever n task h s' hcall _
    exact absurd hnever (hreturns.mp ⟨n, _, hcall⟩)

end

/-! ## Two failures -/

/-- The scheduler without tasks, and a directory at 0. -/
def idle (h : Heap) : Tasking := ⟨h, ⟨0, [], []⟩, Kernel.zero⟩

/-- A free frame as the only block, and no frame left for a stack. -/
def lastHeap : Heap := { grownHeap emptyHeap [] 256 emptyHeap.bitmap with bitmap := fun _ => 255 }

/-- Its block serves a `task_t`. -/
theorem lastHeap_kmalloc : kmalloc lastHeap taskSize 1 =
    .done (1048596, allocated lastHeap (frameBlock 256) taskSize) := rfl

/-- Nothing is left for the stack. -/
theorem lastHeap_contiguous :
    pmmAllocContiguous (allocated lastHeap (frameBlock 256) taskSize).bitmap 2 =
    .ok (noFrame, lastHeap.bitmap) := by
  have hfull : Exhausted lastHeap.bitmap := fullHeap_exhausted
  rw [allocated_bitmap]
  rcases pmmAllocContiguous_spec lastHeap.bitmap (n := 2) (by decide) with
    ⟨f, -, -, ⟨hlt, hfree⟩, -⟩ | ⟨halloc, -⟩
  · have hbit := hfree f (Nat.le_refl f) (Nat.lt_add_of_pos_right (by decide))
    have htwo : (2 : U32).toNat = 2 := rfl
    rw [hfull f (by omega)] at hbit
    cases hbit
  · exact halloc

theorem lastHeap_noStack : NoStack lastHeap :=
  ⟨1, _, _, _, lastHeap_kmalloc, lastHeap_contiguous⟩

/-- The task is made, with its stack in the first two frames of the memory. -/
theorem createTask_lastHeap :
    ∃ s', createTaskCall (idle lastHeap) 0x100000 7 0 1 = .done (1048596, s') ∧
    s'.kernel.queue.head = 1048596 ∧ s'.kernel.numOfTasks = 1 ∧
      (idle lastHeap).heap.mem 8189 = 0 ∧ s'.heap.mem 8189 = 0x10 := by
  refine ⟨_, createTaskCall_eq _ _ _ lastHeap_kmalloc lastHeap_contiguous, ?_, ?_, ?_, ?_⟩
  · decide +kernel
  · decide +kernel
  · decide +kernel
  · decide +kernel

theorem fullHeap_noTask : NoTask fullHeap := by
  constructor
  · exact fun b hb => absurd hb (fullHeap_no_block b)
  · intro frame bitmap halloc
    rcases allocFrameFrom_spec fullHeap.bitmap maxFrames 0 (Nat.zero_add _) with
      ⟨f, -, -, hlt, hfree, -⟩ | ⟨-, hno⟩
    · rw [fullHeap_exhausted f hlt] at hfree
      cases hfree
    · have hall : pmmAllocFrame fullHeap.bitmap = .ok (noFrame, fullHeap.bitmap) := hno
      rw [halloc] at hall
      exact .inl (Prod.mk.inj (Except.ok.inj hall)).1

/-- Without memory for the `task_t` the task stands at 19, and without memory for its stack it is
made all the same. -/
theorem createTask_failure_disturbs :
    (NoTask fullHeap ∧ ¬ CreatesNothing (idle fullHeap) 0x100000 7) ∧
      NoStack lastHeap ∧ ¬ CreatesNothing (idle lastHeap) 0x100000 7 := by
  have hsize : taskSize ≤ 4096 - blockSize := by decide
  have hreturns := kmalloc_returns_iff (h := fullHeap) (by decide) hsize
  have hnever : ¬ NeverReturns fullHeap taskSize := by
    rintro ⟨-, hendless | hzero⟩
    · exact hendless.1 rfl
    · rw [fullHeap_exhausted 0 (by decide)] at hzero
      cases hzero
  obtain ⟨n, r, hcall⟩ := hreturns.mpr hnever
  refine ⟨⟨fullHeap_noTask, not_createsNothing (s := idle fullHeap) hcall⟩, lastHeap_noStack, ?_⟩
  intro hnothing
  obtain ⟨s', hcreate, -, hcount, -⟩ := createTask_lastHeap
  have hsame := (hnothing 1 _ _ s' lastHeap_kmalloc hcreate).numOfTasks
  rw [hcount] at hsame
  cases hsame

end Pelikan

end SystemsProjects

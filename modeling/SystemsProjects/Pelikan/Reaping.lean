import SystemsProjects.Pelikan.SchedulerCoherence
import SystemsProjects.Pelikan.TaskRing
import SystemsProjects.Pelikan.TaskStore

/-!
# What a task owns, and its release

The runs of the kernel with the memory of the tasks. `create_task` gets it, and each round of the
reaper gives that of one task back. Each of the two is taken as one step here, the allocations of
`create_task` succeed, and `unreaped` tells which tasks are created and not yet reaped. Page tables
are left out: those of the guards are there already.

- `reapSystem`: the runs.
- `Conserved`: who has the frames and the blocks of the heap.
- `Released`: what holds when the reaper gives the memory of a task back.
- `reaping_conserves`: both, in every run.

The heap's part of the invariant is `Stored` of `TaskStore`: blocks in use are those of the
tasks that are not reaped, and each frame in use has one owner. The reaper's part is about the
scheduler: a task that it has taken from the dead queue is in no other queue, does not run and
is not on the circular list any more (`Unreferenced`), so that nobody holds a pointer to what is
freed.
-/

namespace SystemsProjects

namespace Pelikan

open TransitionSystem Model

/-- The kernel with its heap and the bitmap of the frames. `usedFirst` are the frames in use in
front of `spawn_reaper`, `heapFrames` those the heap has obtained. -/
structure Reaping where
  sys : Sys
  heap : Heap
  usedFirst : Set Nat
  heapFrames : Set Nat

/-- The first two calls of `create_task`, with what they return: `kmalloc`, which leaves the heap
`h'`, and `pmm_alloc_contiguous`, which leaves the bitmap `b`. -/
structure Obtains (h : Heap) (task : Addr) (h' : Heap) (base : U32) (b : Bitmap) : Prop where
  left : frameLeft h.bitmap = true
  kmalloc : Yields (Pelikan.kmalloc h taskSize) (task, h')
  contiguous : pmmAllocContiguous h'.bitmap 2 = .ok (base, b)
  granted : base ≠ noFrame

/-- `create_task`, a round of the reaper, a store, or another step of the kernel. -/
inductive ReapAction where
  | create (id : BitVec 32)
  | reaper
  /-- A step of the scheduler that neither creates nor reaps. -/
  | other (act : Action)
  /-- Some code stores somewhere in its memory. -/
  | store

/-- Neither `create_task` nor the reaper. -/
def Action.Other : Action → Prop
  | .createTask .. | .reaperRound => False
  | _ => True

/-- What they do to the kernel, the heap and the frames. -/
inductive ReapStep : Reaping → ReapAction → Reaping → Prop where
  | create {x : Reaping} {task : Addr} {h : Heap} {base id : U32} {b : Bitmap}
      (hcall : x.sys.control.phase = .boot ∨ x.sys.MayCall) (hmem : Obtains x.heap task h base b) :
      ReapStep x (.create id) { x with
        sys := { kernel := createTask x.sys.kernel task base id 0
                 control := x.sys.control.create task }
        heap := h.withBitmap b
        heapFrames := x.heapFrames ∪ (usedFrames h.bitmap \ usedFrames x.heap.bitmap) }
  | sleep {x : Reaping} {sys : Sys} (hstep : x.sys.step .reaperRound = some sys)
      (hnone : (reaperRound x.sys.kernel).1 = 0) : ReapStep x .reaper { x with sys }
  | reap {x : Reaping} {sys : Sys} {corpse : Addr} {heap : Heap}
      (hstep : x.sys.step .reaperRound = some sys) (hcorpse : (reaperRound x.sys.kernel).1 = corpse)
      (hne : corpse ≠ 0)
      (hrelease : releaseTask x.heap (x.sys.kernel.stackBase corpse) corpse = .ok heap) :
      ReapStep x .reaper { x with sys, heap }
  | other {x : Reaping} {sys : Sys} {act : Action} (hother : act.Other)
      (hstep : x.sys.step act = some sys) : ReapStep x (.other act) { x with sys }
  | store {x : Reaping} {mem : ByteMemory}
      (hmem : ∀ a, a / 4096 ∈ x.heapFrames →
        (∀ t ∈ x.sys.control.unreaped, a < t ∨ t + taskSize ≤ a) → mem a = x.heap.mem a) :
      ReapStep x .store { x with heap := { x.heap with mem } }

/-- Behind `spawn_reaper`, the first call that uses the heap. -/
def Reaping.Initial (x : Reaping) : Prop :=
  ∃ h₀ reaper h base b, h₀.head = 0 ∧ bitAt h₀.bitmap 0 = true ∧ Obtains h₀ reaper h base b ∧
    x = { sys := Sys.init reaper base
          heap := h.withBitmap b
          usedFirst := usedFrames h₀.bitmap
          heapFrames := usedFrames h.bitmap \ usedFrames h₀.bitmap }

/-- The runs behind `spawn_reaper`. -/
def reapSystem : TransitionSystem Reaping ReapAction := ⟨Reaping.Initial, ReapStep⟩

/-! ## What is promised -/

/-- The guard and the stack of a task. -/
def taskFrames (k : Kernel) (t : Addr) : Finset Nat := stackFrames (k.stackBase t)

/-- A task owns frames until it is reaped. -/
def Reaping.Owns (x : Reaping) : Owner → Nat → Prop
  | .first, f => f ∈ x.usedFirst
  | .heap, f => f ∈ x.heapFrames
  | .task t, f => t ∈ x.sys.control.unreaped ∧ f ∈ taskFrames x.sys.kernel t

/-- The frames in use are those in use at first, those of the heap, and two for each task that is
not reaped, all of them different; the blocks in use are the `task_t` of these tasks. -/
structure Conserved (x : Reaping) : Prop where
  frames : Ownership (usedFrames x.heap.bitmap) x.Owns
  two : ∀ t ∈ x.sys.control.unreaped, (taskFrames x.sys.kernel t).card = 2
  blocks : ∀ p, BlockInUse x.heap p ↔ p ∈ x.sys.control.unreaped

/-- Nothing in the kernel leads to the task. -/
structure Unreferenced (s : Sys) (t : Addr) : Prop where
  current : s.kernel.currentTask ≠ t
  queues : ∀ q, ∃ l, s.kernel.InQueue q l ∧ t ∉ l
  ring : ∃ l, s.kernel.InRing l ∧ (∀ u, u ∈ l ↔ u ∈ s.control.unreaped) ∧ t ∉ l
  links : ∀ u ∈ s.control.unreaped, s.kernel.next u ≠ t ∧ s.kernel.prev u ≠ t
  last : s.kernel.lastInserted ≠ t

/-- The memory of the task, which has it, is released: its frames and its block are in use before
and not behind. The task is dead then, and nobody knows it any more. -/
structure Released (x : Reaping) (corpse : Addr) (x' : Reaping) : Prop where
  created : corpse ∈ x.sys.control.unreaped
  reaped : x'.sys.control.unreaped = x.sys.control.unreaped.erase corpse
  dead : x'.sys.kernel.state corpse = .dead
  unreferenced : Unreferenced x'.sys corpse
  frames : ↑(taskFrames x.sys.kernel corpse) ⊆ usedFrames x.heap.bitmap ∧
    usedFrames x'.heap.bitmap = usedFrames x.heap.bitmap \ ↑(taskFrames x.sys.kernel corpse)
  block : BlockInUse x.heap corpse ∧ ¬ BlockInUse x'.heap corpse

/-! ## Stacks -/

section

variable {s s' : Sys} {act : Action} {t : Addr}

/-- `mutex_lock` leaves the stacks alone, and who is reaped. -/
theorem lockStep_keeps (s : Sys) (lock : Addr) :
    (s.lockStep lock).kernel.stackBase = s.kernel.stackBase ∧
    (s.lockStep lock).control.unreaped = s.control.unreaped := by
  have hstack := (SameRecords.mutexLock s.kernel lock).stackBase
  unfold Sys.lockStep
  rcases hlock : mutexLock s.kernel lock with ⟨returned, k⟩
  rw [hlock] at hstack
  cases returned with
  | true | false => exact ⟨hstack, rfl⟩

/-- The other steps leave the stacks alone, and who is reaped. -/
theorem Action.Other.keeps (hother : act.Other) (hstep : s.step act = some s') :
    s'.kernel.stackBase = s.kernel.stackBase ∧ s'.control.unreaped = s.control.unreaped := by
  cases act with
  | createTask | reaperRound => exact hother.elim
  | schedule =>
    obtain ⟨-, hs'⟩ := Option.ite_none_right_eq_some.mp hstep
    rw [← Option.some.inj hs']
    exact ⟨rfl, rfl⟩
  | dispatch =>
    obtain ⟨-, hs'⟩ := Option.ite_none_right_eq_some.mp hstep
    split at hs'
    · cases hs'
    · next k hk =>
      rw [← Option.some.inj hs']
      exact ⟨(SameRecords.dispatch hk).stackBase, rfl⟩
  | timer =>
    obtain ⟨-, hs'⟩ := Option.ite_none_right_eq_some.mp hstep
    rw [← Option.some.inj hs']
    exact ⟨(SameRecords.yield _).stackBase, rfl⟩
  | threadExit =>
    obtain ⟨-, hs'⟩ := Option.ite_none_right_eq_some.mp hstep
    rw [← Option.some.inj hs']
    exact ⟨(SameRecords.threadExit _).stackBase, rfl⟩
  | mutexLock lock =>
    obtain ⟨-, hs'⟩ := Option.ite_none_right_eq_some.mp hstep
    rw [← Option.some.inj hs']
    exact lockStep_keeps s lock
  | resumeLock =>
    obtain ⟨-, hs'⟩ := Option.ite_none_right_eq_some.mp hstep
    split at hs'
    · cases hs'
    · rw [← Option.some.inj hs']
      exact lockStep_keeps s _
  | mutexUnlock lock =>
    obtain ⟨-, hs'⟩ := Option.ite_none_right_eq_some.mp hstep
    have hstack := (SameRecords.mutexUnlock s.kernel lock).stackBase
    rw [← Option.some.inj hs']
    exact ⟨hstack, rfl⟩

/-- A round of the reaper that goes to sleep, or one that takes `(reaperRound s.kernel).1`. -/
theorem reaperRound_step (hreach : taskSystem.Reachable s) (hstep : s.step .reaperRound = some s') :
    s'.kernel = (reaperRound s.kernel).2 ∧
      (((reaperRound s.kernel).1 = 0 ∧ s'.control.unreaped = s.control.unreaped) ∨
        ∃ corpse, (reaperRound s.kernel).1 = corpse ∧ corpse ≠ 0 ∧ corpse ∈ s.control.unreaped ∧
          s'.control.unreaped = s.control.unreaped.erase corpse ∧ s'.kernel.state corpse = .dead ∧
          s'.kernel.currentTask = s.kernel.currentTask) := by
  have hcases := reaperRound_cases hreach hstep
  unfold Sys.step at hstep
  obtain ⟨-, hs'⟩ := Option.ite_none_right_eq_some.mp hstep
  rcases hround : reaperRound s.kernel with ⟨corpse, k⟩
  rw [hround] at hs'
  change (if corpse = 0 then _ else _) = _ at hs'
  by_cases hzero : corpse = 0
  · rw [if_pos hzero] at hs'
    rw [← Option.some.inj hs']
    exact ⟨rfl, .inl ⟨hzero, rfl⟩⟩
  · rw [if_neg hzero] at hs'
    rw [← Option.some.inj hs'] at hcases ⊢
    refine ⟨rfl, .inr ⟨corpse, rfl, hzero, ?_⟩⟩
    -- the event tells which of the two rounds it was
    rcases hcases with ⟨-, hslept⟩ | ⟨corpse', hmem, hdead, -, hkernel, hreap⟩
    · have hevent := (List.cons.inj (congrArg Control.trace hslept)).1
      cases hevent
    · have hevent := (List.cons.inj (congrArg Control.trace hreap)).1
      obtain rfl := Event.reaped.inj hevent
      have hkernel : k = removeTaskFromCircularList (removeTaskFromDeadQueue s.kernel).2 corpse :=
        hkernel
      refine ⟨hmem, rfl, ?_, ?_⟩
      · show k.state corpse = .dead
        rw [hkernel]
        unfold removeTaskFromCircularList
        dsimp only
        split <;> exact hdead
      · show k.currentTask = _
        rw [hkernel]
        exact removeTask_currentTask ..

/-- A task that is reaped is nowhere in the kernel. -/
theorem unreferenced_of_notMem (hreach : taskSystem.Reachable s)
    (hcurrent : s.kernel.currentTask ∈ s.control.unreaped) (ht : t ∉ s.control.unreaped)
    (hne : t ≠ 0) : Unreferenced s t := by
  obtain ⟨a, hareach, hsim⟩ := taskSystem_simulated hreach
  have hinv := wellPlaced_of_reachable hareach
  obtain ⟨l, hring, hmem⟩ := ringHolds_of_reachable hreach
  have hout : ∀ u, u ∈ l → u ≠ t := by
    rintro u hu rfl
    exact ht ((hmem u).mp hu)
  refine ⟨fun heq => ht (heq ▸ hcurrent), fun q => ⟨a.tasks q, hsim.inQueue q, fun hin => ?_⟩,
    ⟨l, hring, hmem, fun hin => ht ((hmem t).mp hin)⟩, fun u hu => ?_, ?_⟩
  · have hmember := ((hinv.queued.tasks q).mem_iff t).mp hin
    rw [hsim.2] at ht
    exact ht hmember.mem_unreaped
  · obtain ⟨hnext, hprev⟩ := hring.circle.neighbours ((hmem u).mpr hu)
    exact ⟨hout _ hnext, hout _ hprev⟩
  · rw [hring.last_eq]
    cases l with
    | nil => exact hne.symm
    | cons u l => exact hout u (List.mem_cons_self ..)

/-- When a task has the CPU, it is not reaped. -/
theorem current_mem_unreaped (hreach : taskSystem.Reachable s)
    (hphase : s.control.phase = .running) :
    s.kernel.currentTask ∈ s.control.unreaped := by
  obtain ⟨a, hareach, hsim⟩ := taskSystem_simulated hreach
  have hinv := wellPlaced_of_reachable hareach
  rw [hsim.2] at hphase ⊢
  rw [hsim.1.current]
  exact hinv.coherent.current_mem hphase

end

/-! ## The invariant -/

/-- The memory of the tasks, and where their frames are. -/
structure Holding (x : Reaping) (l : List Block) (frames : Finset Nat) : Prop where
  reach : taskSystem.Reachable x.sys
  stored : Stored x.heap l frames (· ∈ x.sys.control.unreaped) x.Owns
  stack : ∀ t ∈ x.sys.control.unreaped,
    ∃ s, x.sys.kernel.stackBase t = frameAddr s + 4096 ∧ s + 1 < maxFrames

section

variable {x x' : Reaping} {l : List Block} {frames : Finset Nat} {k k' : Kernel} {s : Nat}
  {t task corpse : Addr} {base id : U32} {h h₀ : Heap} {b : Bitmap} {sys : Sys} {act : Action}
  {a : ReapAction} {blocks : Addr → Prop} {owns : Owner → Nat → Prop}

/-- The frames of a task are the guard and the stack it was given. -/
theorem taskFrames_eq (hstack : k.stackBase t = frameAddr s + 4096) (hs : s + 1 < maxFrames) :
    taskFrames k t = {s, s + 1} := by
  unfold taskFrames
  rw [hstack, stackFrames_eq hs]

/-- The frames depend on `stack_base` only. -/
theorem taskFrames_congr (hstack : k'.stackBase t = k.stackBase t) :
    taskFrames k' t = taskFrames k t := congrArg stackFrames hstack

theorem Holding.frames_eq (hx : Holding x l frames) : x.heapFrames = ↑frames :=
  Set.ext hx.stored.heap

theorem Holding.conserved (hx : Holding x l frames) : Conserved x where
  frames := hx.stored.frames
  two t ht := by
    obtain ⟨s, hstack, hs⟩ := hx.stack t ht
    rw [taskFrames_eq hstack hs]
    exact Finset.card_pair (Nat.ne_of_lt (Nat.lt_succ_self s))
  blocks p := hx.stored.cells.shape.blockInUse_iff.trans (hx.stored.inUse p)

/-- The scheduler changes neither the stacks nor who is reaped. -/
theorem Holding.scheduled (hx : Holding x l frames) (hreach : taskSystem.Reachable sys)
    (hstack : sys.kernel.stackBase = x.sys.kernel.stackBase)
    (hunreaped : sys.control.unreaped = x.sys.control.unreaped) :
    Holding { x with sys } l frames := by
  refine ⟨hreach, hx.stored.congr (fun p => ?_) fun o f => ?_, fun t ht => ?_⟩
  · rw [hunreaped]
  · cases o with
    | first | heap => exact Iff.rfl
    | task t =>
      show t ∈ sys.control.unreaped ∧ f ∈ taskFrames sys.kernel t ↔ _
      rw [hunreaped, taskFrames_congr (congrFun hstack t)]
      exact Iff.rfl
  · show ∃ s, sys.kernel.stackBase t = _ ∧ _
    rw [hstack]
    exact hx.stack t (hunreaped ▸ ht)

/-- What `create_task` gets from the two allocators. -/
theorem Obtains.stored (hmem : Obtains h₀ task h base b) (hs : Stored h₀ l frames blocks owns) :
    task ≠ 0 ∧ ¬ blocks task ∧ ∃ s l' frames', base = frameAddr s ∧ s + 1 < maxFrames ∧
      Stored (h.withBitmap b) l' frames' (fun p => p = task ∨ blocks p) fun o f =>
        (owns o f ∨ o = .heap ∧ f ∈ usedFrames h.bitmap \ usedFrames h₀.bitmap) ∨
          o = .task task ∧ f ∈ stackFrames (base + 4096) := by
  obtain ⟨hne, hfresh, l', frames', hs'⟩ := hs.kmalloc hmem.left hmem.kmalloc
  obtain ⟨s, hbase, hlt, hs''⟩ := hs'.contiguous hmem.contiguous hmem.granted task
  exact ⟨hne, hfresh, s, l', frames', hbase, hlt, hs''⟩

/-- `create_task` -/
theorem Holding.create (hx : Holding x l frames)
    (hcall : x.sys.control.phase = .boot ∨ x.sys.MayCall) (hmem : Obtains x.heap task h base b) :
    ∃ l' frames', Holding { x with
      sys := { kernel := createTask x.sys.kernel task base id 0
               control := x.sys.control.create task }
      heap := h.withBitmap b
      heapFrames := x.heapFrames ∪ (usedFrames h.bitmap \ usedFrames x.heap.bitmap) }
      l' frames' := by
  obtain ⟨hne, hfresh, s, l', frames', rfl, hlt, hs⟩ := hmem.stored hx.stored
  have hstep : x.sys.step (.createTask task (frameAddr s) id) =
      some { kernel := createTask x.sys.kernel task (frameAddr s) id 0
             control := x.sys.control.create task } := if_pos ⟨hcall, hne, hfresh⟩
  have hstack := createTask_stackBase x.sys.kernel task (frameAddr s) id 0
  have hnew : (createTask x.sys.kernel task (frameAddr s) id 0).stackBase task =
      frameAddr s + 4096 := by
    rw [hstack, Function.update_self]
  -- the new task has two frames, the others have theirs
  have hold : ∀ t ∈ x.sys.control.unreaped,
      (createTask x.sys.kernel task (frameAddr s) id 0).stackBase t = x.sys.kernel.stackBase t := by
    intro t ht
    rw [hstack]
    refine Function.update_of_ne ?_ ..
    rintro rfl
    exact hfresh ht
  refine ⟨l', frames', .step hx.reach hstep, hs.congr (fun p => Finset.mem_insert) fun o f => ?_,
    fun t ht => ?_⟩
  · cases o with
    | first => simp [Reaping.Owns]
    | heap => simp [Reaping.Owns]
    | task t =>
      show t ∈ insert task x.sys.control.unreaped ∧
        f ∈ taskFrames (createTask x.sys.kernel task (frameAddr s) id 0) t ↔ _
      by_cases ht : t = task
      · subst ht
        rw [taskFrames_eq hnew hlt, stackFrames_eq hlt]
        simp [Reaping.Owns, hfresh]
      · by_cases hin : t ∈ x.sys.control.unreaped
        · rw [taskFrames_congr (hold t hin)]
          simp [Reaping.Owns, ht, hin]
        · simp [Reaping.Owns, ht, hin]
  · rcases Finset.mem_insert.mp ht with rfl | ht
    · exact ⟨s, hnew, hlt⟩
    · show ∃ s, (createTask x.sys.kernel task _ id 0).stackBase t = _ ∧ _
      rw [hold t ht]
      exact hx.stack t ht

/-- The releases go through, and take from the task what it has. -/
theorem Holding.release (hx : Holding x l frames) (hcorpse : corpse ∈ x.sys.control.unreaped) :
    ∃ heap l', releaseTask x.heap (x.sys.kernel.stackBase corpse) corpse = .ok heap ∧
      usedFrames heap.bitmap = usedFrames x.heap.bitmap \ ↑(taskFrames x.sys.kernel corpse) ∧
      Stored heap l' frames (fun p => p ∈ x.sys.control.unreaped ∧ p ≠ corpse)
        fun o f => x.Owns o f ∧ o ≠ .task corpse := by
  obtain ⟨s, hstack, hlt⟩ := hx.stack corpse hcorpse
  unfold taskFrames
  rw [hstack]
  refine hx.stored.release hcorpse hlt fun f => ?_
  show corpse ∈ x.sys.control.unreaped ∧ f ∈ stackFrames (x.sys.kernel.stackBase corpse) ↔ _
  rw [hstack]
  exact and_iff_right hcorpse

/-- A round of the reaper. -/
theorem Holding.reaper (hx : Holding x l frames) (hstep : x.sys.step .reaperRound = some sys) :
    (Holding { x with sys } l frames ∧ (reaperRound x.sys.kernel).1 = 0 ∧
        sys.control.unreaped = x.sys.control.unreaped) ∨
      ∃ corpse heap l', (reaperRound x.sys.kernel).1 = corpse ∧ corpse ≠ 0 ∧
        releaseTask x.heap (x.sys.kernel.stackBase corpse) corpse = .ok heap ∧
        Holding { x with sys, heap } l' frames ∧ Released x corpse { x with sys, heap } := by
  have hreach : taskSystem.Reachable sys := .step hx.reach hstep
  obtain ⟨hkernel, hround⟩ := reaperRound_step hx.reach hstep
  have hstack : sys.kernel.stackBase = x.sys.kernel.stackBase :=
    hkernel ▸ (SameRecords.reaperRound x.sys.kernel).stackBase
  rcases hround with ⟨hnone, hunreaped⟩ |
    ⟨corpse, hcorpse, hne, hmem, hunreaped, hdead, hcurrent⟩
  · exact .inl ⟨hx.scheduled hreach hstack hunreaped, hnone, hunreaped⟩
  · right
    obtain ⟨heap, l', hrelease, hused, hs⟩ := hx.release hmem
    have hholding : Holding { x with sys, heap } l' frames := by
      refine ⟨hreach, hs.congr (fun p => ?_) fun o f => ?_, fun t ht => ?_⟩
      · rw [hunreaped]
        exact Finset.mem_erase.trans and_comm
      · cases o with
        | first | heap => simp [Reaping.Owns]
        | task t =>
          show t ∈ sys.control.unreaped ∧ f ∈ taskFrames sys.kernel t ↔ _
          rw [hunreaped, taskFrames_congr (congrFun hstack t)]
          simp only [Reaping.Owns, Finset.mem_erase, ne_eq, Owner.task.injEq]
          tauto
      · show ∃ s, sys.kernel.stackBase t = _ ∧ _
        rw [hstack]
        have ht : t ∈ sys.control.unreaped := ht
        rw [hunreaped] at ht
        exact hx.stack t (Finset.mem_of_mem_erase ht)
    have hcur : sys.kernel.currentTask ∈ sys.control.unreaped := by
      have hphase := (Option.ite_none_right_eq_some.mp hstep).1
      rw [hunreaped, hcurrent]
      refine Finset.mem_erase.mpr ⟨?_, current_mem_unreaped hx.reach hphase.1.1⟩
      -- the reaper does not die
      obtain ⟨a, hareach, hsim⟩ := taskSystem_simulated hreach
      have halive := (wellPlaced_of_reachable hareach).coherent.reaper_alive
      rw [← hsim.1.state, ← hsim.1.reaper] at halive
      have hreaper : sys.kernel.reaperTask = x.sys.kernel.reaperTask := by
        rw [hkernel]
        exact (SameRecords.reaperRound _).reaperTask
      rintro heq
      rw [hreaper, ← hphase.2, heq] at halive
      exact halive hdead
    refine ⟨corpse, heap, l', hcorpse, hne, hrelease, hholding, hmem, hunreaped, hdead, ?_,
      ⟨fun f hf => (hx.stored.frames.used_iff f).mpr ⟨.task corpse, hmem, hf⟩, hused⟩, ?_, ?_⟩
    · refine unreferenced_of_notMem hreach hcur ?_ hne
      show corpse ∉ sys.control.unreaped
      rw [hunreaped]
      exact Finset.notMem_erase corpse _
    · exact (hx.conserved.blocks corpse).mpr hmem
    · rw [hholding.conserved.blocks]
      show corpse ∉ sys.control.unreaped
      rw [hunreaped]
      exact Finset.notMem_erase corpse _

/-! ## Runs -/

/-- Behind `spawn_reaper` the reaper is the only task. -/
theorem Reaping.Initial.holding (h : x.Initial) : ∃ l frames, Holding x l frames := by
  obtain ⟨h₀, reaper, h, base, b, hhead, hzero, hmem, rfl⟩ := h
  obtain ⟨hne, -, s, l', frames', rfl, hlt, hs⟩ := hmem.stored (.empty hhead hzero)
  have hstack : (Sys.init reaper (frameAddr s)).kernel.stackBase reaper = frameAddr s + 4096 := by
    have hstack := createTask_stackBase .zero reaper (frameAddr s) 99 1
    show (createTask .zero reaper (frameAddr s) 99 1).stackBase reaper = _
    rw [hstack, Function.update_self]
  refine ⟨l', frames', .init ⟨reaper, frameAddr s, hne, rfl⟩, hs.congr (fun p => ?_) fun o f => ?_,
    fun t ht => ?_⟩
  · show p ∈ ({reaper} : Finset Addr) ↔ _
    rw [Finset.mem_singleton, or_false]
  · cases o with
    | first => simp [Reaping.Owns]
    | heap => simp [Reaping.Owns]
    | task t =>
      show t ∈ ({reaper} : Finset Addr) ∧ f ∈ taskFrames (Sys.init reaper _).kernel t ↔ _
      rw [Finset.mem_singleton]
      by_cases ht : t = reaper
      · subst ht
        rw [taskFrames_eq hstack hlt, stackFrames_eq hlt]
        simp
      · simp [ht]
  · have ht : t ∈ ({reaper} : Finset Addr) := ht
    rw [Finset.mem_singleton] at ht
    subst ht
    exact ⟨s, hstack, hlt⟩

/-- Every step keeps the invariant. -/
theorem Holding.step (hx : Holding x l frames) (hstep : ReapStep x a x') :
    ∃ l' frames', Holding x' l' frames' := by
  cases hstep with
  | create hcall hmem => exact hx.create hcall hmem
  | sleep hstep hnone =>
    rcases hx.reaper hstep with ⟨hx', -⟩ | ⟨corpse, heap, l', hcorpse, hne, -⟩
    · exact ⟨l, frames, hx'⟩
    · exact absurd (hcorpse.symm.trans hnone) hne
  | reap hstep hcorpse hne hrelease =>
    rcases hx.reaper hstep with ⟨-, hnone, -⟩ | ⟨corpse', heap', l', hcorpse', -, hrelease', hx', -⟩
    · exact absurd (hcorpse.symm.trans hnone) hne
    · obtain rfl := hcorpse.symm.trans hcorpse'
      obtain rfl := Except.ok.inj (hrelease.symm.trans hrelease')
      exact ⟨l', frames, hx'⟩
  | other hother hstep =>
    obtain ⟨hstack, hunreaped⟩ := hother.keeps hstep
    exact ⟨l, frames, hx.scheduled (.step hx.reach hstep) hstack hunreaped⟩
  | store hmem =>
    refine ⟨l, frames, hx.reach, hx.stored.store fun a ha hout => hmem a ?_ hout, hx.stack⟩
    exact (hx.stored.heap _).mpr ha

theorem holding_of_reachable (h : reapSystem.Reachable x) : ∃ l frames, Holding x l frames := by
  refine h.invariant (P := fun x => ∃ l frames, Holding x l frames)
    (fun x hx => Reaping.Initial.holding hx) ?_
  rintro x a x' - ⟨l, frames, hx⟩ hstep
  exact hx.step hstep

end

/-- In every run the memory of the tasks is conserved. The reaper's iterations go through, and
each one finds nobody or releases the memory of one task, which has it and which nobody knows. -/
theorem reaping_conserves {x : Reaping} (h : reapSystem.Reachable x) :
    Conserved x ∧
      (∀ sys, x.sys.step .reaperRound = some sys → ∃ x', reapSystem.Step x .reaper x') ∧
      ∀ x', reapSystem.Step x .reaper x' →
        (x'.heap = x.heap ∧ x'.sys.control.unreaped = x.sys.control.unreaped) ∨
          ∃ corpse, Released x corpse x' := by
  obtain ⟨l, frames, hx⟩ := holding_of_reachable h
  refine ⟨hx.conserved, fun sys hstep => ?_, fun x' hstep => ?_⟩
  · rcases hx.reaper hstep with ⟨-, hnone, -⟩ | ⟨corpse, heap, l', hcorpse, hne, hrelease, -⟩
    · exact ⟨_, .sleep hstep hnone⟩
    · exact ⟨_, .reap hstep hcorpse hne hrelease⟩
  · cases hstep with
    | sleep hstep hnone =>
      rcases hx.reaper hstep with ⟨-, -, hunreaped⟩ | ⟨corpse, heap, l', hcorpse, hne, -⟩
      · exact .inl ⟨rfl, hunreaped⟩
      · exact absurd (hcorpse.symm.trans hnone) hne
    | reap hstep hcorpse hne hrelease =>
      rcases hx.reaper hstep with ⟨-, hnone, -⟩ |
        ⟨corpse', heap', l', hcorpse', -, hrelease', -, hreleased⟩
      · exact absurd (hcorpse.symm.trans hnone) hne
      · obtain rfl := hcorpse.symm.trans hcorpse'
        obtain rfl := Except.ok.inj (hrelease.symm.trans hrelease')
        exact .inr ⟨_, hreleased⟩

/-! ## A run -/

/-- The first two calls of `create_task`. The search gets fuel for a list of 15 blocks. -/
def obtain? (h : Heap) : Option (Addr × Heap × U32 × Bitmap) :=
  match frameLeft h.bitmap, kmalloc h taskSize 16 with
  | true, .done (task, h') =>
    match pmmAllocContiguous h'.bitmap 2 with
    | .ok (base, b) => if base = noFrame then none else some (task, h', base, b)
    | .error _ => none
  | _, _ => none

/-- The allocations that are executed are those of a call. -/
theorem obtain?_spec {h h' : Heap} {task : Addr} {base : U32} {b : Bitmap}
    (hcall : obtain? h = some (task, h', base, b)) : Obtains h task h' base b := by
  unfold obtain? at hcall
  split at hcall
  · next hleft hkmalloc =>
    split at hcall
    · next hpmm =>
      split at hcall
      · cases hcall
      · next hne =>
        cases hcall
        exact ⟨hleft, ⟨16, hkmalloc⟩, hpmm, hne⟩
    · cases hcall
  · cases hcall

/-- The step as a function. -/
def reapExec (x : Reaping) : ReapAction → Option Reaping
  | .create id =>
    match obtain? x.heap with
    | some (task, h, base, b) =>
      if x.sys.control.phase = .boot ∨ x.sys.MayCall then some { x with
        sys := { kernel := createTask x.sys.kernel task base id 0
                 control := x.sys.control.create task }
        heap := h.withBitmap b
        heapFrames := x.heapFrames ∪ (usedFrames h.bitmap \ usedFrames x.heap.bitmap) }
      else none
    | none => none
  | .reaper =>
    match x.sys.step .reaperRound with
    | some sys =>
      if (reaperRound x.sys.kernel).1 = 0 then some { x with sys }
      else
        match releaseTask x.heap (x.sys.kernel.stackBase (reaperRound x.sys.kernel).1)
          (reaperRound x.sys.kernel).1 with
        | .ok heap => some { x with sys, heap }
        | .error _ => none
    | none => none
  | .other (.createTask ..) | .other .reaperRound | .store => none
  | .other act => (x.sys.step act).map fun sys => { x with sys }

theorem reapExec_step (x : Reaping) (a : ReapAction) (x' : Reaping) (h : reapExec x a = some x') :
    reapSystem.Step x a x' := by
  unfold reapExec at h
  split at h
  · split at h
    · next hobtain =>
      obtain ⟨hcall, heq⟩ := Option.ite_none_right_eq_some.mp h
      rw [← Option.some.inj heq]
      exact .create hcall (obtain?_spec hobtain)
    · cases h
  · split at h
    · next sys hstep =>
      split at h
      · next hnone =>
        -- the round found no corpse
        rw [← Option.some.inj h]
        exact .sleep hstep hnone
      · next hne =>
        split at h
        · next heap hrelease =>
          rw [← Option.some.inj h]
          exact .reap hstep rfl hne hrelease
        · cases h
    · cases h
  · cases h
  · cases h
  · cases h
  · next act hcreate hreaper =>
    obtain ⟨sys, hstep, heq⟩ := Option.map_eq_some_iff.mp h
    rw [← heq]
    refine .other ?_ hstep
    cases act with
    | createTask task base id => exact absurd rfl (hcreate task base id)
    | reaperRound => exact absurd rfl hreaper
    | _ => trivial

/-- `spawn_reaper` with the heap of `bootState`. -/
def bootReaping : Option Reaping :=
  (obtain? bootState.heap).map fun (reaper, h, base, b) =>
    { sys := Sys.init reaper base
      heap := h.withBitmap b
      usedFirst := usedFrames bootState.heap.bitmap
      heapFrames := usedFrames h.bitmap \ usedFrames bootState.heap.bitmap }

/-- The state of the example is one that the kernel starts in. -/
theorem bootReaping_initial {x : Reaping} (h : bootReaping = some x) : x.Initial := by
  obtain ⟨⟨reaper, h', base, b⟩, hobtain, rfl⟩ := Option.map_eq_some_iff.mp h
  exact ⟨bootState.heap, reaper, h', base, b, rfl, by decide, obtain?_spec hobtain, rfl⟩

/-- A task is created and exits, and the reaper is dispatched. -/
def exitRun : List ReapAction :=
  [.create 1, .other .schedule, .other .dispatch, .other .threadExit, .other .dispatch]

theorem exitRun_reaps : (bootReaping.bind fun x => (runActions reapExec exitRun x).bind fun y =>
    (reapExec y .reaper).map fun z => (y.sys.control.unreaped, z.sys.control.unreaped)) =
      some ({1048660, 1048596}, {1048596}) := by
  decide +kernel

theorem reaping_conserves_exitRun : ∃ x x' corpse, reapSystem.Reachable x ∧
    reapSystem.Step x .reaper x' ∧ Conserved x ∧ Released x corpse x' := by
  obtain ⟨x₀, hinit, hrest⟩ := Option.bind_eq_some_iff.mp exitRun_reaps
  obtain ⟨x, hrun, hrest⟩ := Option.bind_eq_some_iff.mp hrest
  obtain ⟨x', hexec, hunreaped⟩ := Option.map_eq_some_iff.mp hrest
  obtain ⟨hbefore, hafter⟩ := Prod.mk.inj hunreaped
  have hreach : reapSystem.Reachable x :=
    (Reachable.init (bootReaping_initial hinit)).runActions
      (fun _ a _ hs => ⟨a, reapExec_step _ _ _ hs⟩) hrun
  have hstep := reapExec_step _ _ _ hexec
  obtain ⟨hconserved, -, hreleases⟩ := reaping_conserves hreach
  rcases hreleases x' hstep with ⟨-, hsame⟩ | ⟨corpse, hreleased⟩
  · rw [hbefore, hafter] at hsame
    exact absurd hsame (by decide)
  · exact ⟨x, x', corpse, hreach, hstep, hconserved, hreleased⟩

end Pelikan

end SystemsProjects

import SystemsProjects.Pelikan.CreateCalls

/-!
# The memory of tasks and calls

What the heap and the frame allocator hold while calls of `create_task` are on their way, in runs
whose allocations are not preempted and succeed. A `task_t` and two frames belong to the call until
the ready queue has the task, and to the task from then on.

- `Possession`: the blocks in use are those of tasks and of calls, and each frame in use has one
  owner.
- `Possession.kmalloc`, `Possession.contiguous`, `Possession.publish`: what the parts of a call do.
- `Possession.reap`: what a round of the reaper does.

The argument is the one of `Reaping`, with one more kind of owner. Between the allocations and
the ready queue the memory belongs to a call, and the caller can be preempted there for as long
as the scheduler likes: others allocate and free meanwhile, and `Possession` says that they
never meet this memory. What is preserved by each part is a lemma of its own, and the steps of
the scheduler change nothing of it (`Possession.scheduled`).
-/

namespace SystemsProjects

namespace Pelikan

/-- The call was not preempted in an allocator, and its frames are frames. -/
def CreatePoint.Sound : CreatePoint → Prop
  | .allocating preempted | .reserving _ preempted => preempted = false
  | .reserved _ base => ∃ s, base = frameAddr s ∧ s + 1 < maxFrames
  | _ => True

/-- Who has a frame. Those of a task belong to the call that creates it first. -/
def Creating.Holds (x : Creating) : Owner → Nat → Prop
  | .first, f => f ∈ x.usedFirst
  | .heap, f => f ∈ x.heapFrames
  | .task p, f => (p ∈ x.sys.control.unreaped ∧ f ∈ taskFrames x.sys.kernel p) ∨
      ∃ t, (x.point t).memory? = some p ∧ f ∈ (x.point t).frames

/-- The memory of the tasks, and that of the calls. -/
structure Possession (x : Creating) (l : List Block) (frames : Finset Nat) : Prop where
  stored : Stored x.heap l frames x.Block x.Holds
  sound : ∀ t, (x.point t).Sound
  /-- No task has what a call alone knows. -/
  fresh : ∀ t p, (x.point t).memory? = some p → p ≠ 0 ∧ p ∉ x.sys.control.unreaped
  once : ∀ t u p, (x.point t).memory? = some p → (x.point u).memory? = some p → t = u
  stack : ∀ t ∈ x.sys.control.unreaped,
    ∃ s, x.sys.kernel.stackBase t = frameAddr s + 4096 ∧ s + 1 < maxFrames

section

variable {x x' : Creating} {l : List Block} {frames : Finset Nat} {p : CreatePoint} {sys : Sys}
  {task corpse t u : Addr} {base id : U32} {h heap : Heap} {b : Bitmap} {q : Addr}

/-! ## Where the calls are -/

/-- Somebody is at a point behind the step: the one that moved, or another. -/
theorem exists_goto {P : CreatePoint → Prop} : (∃ t, P ((x.goto p).point t)) ↔
    P p ∨ ∃ t, t ≠ x.sys.kernel.currentTask ∧ P (x.point t) :=
  Function.exists_update_iff x.point fun _ q => P q

/-- Somebody is at a point: the current task or another. -/
theorem exists_point {P : CreatePoint → Prop} : (∃ t, P (x.point t)) ↔
    P x.here ∨ ∃ t, t ≠ x.sys.kernel.currentTask ∧ P (x.point t) := by
  have hself : (x.goto x.here).point = x.point := Function.update_eq_self ..
  rw [← exists_goto, hself]

theorem goto_point (t : Addr) : (t = x.sys.kernel.currentTask ∧ (x.goto p).point t = p) ∨
    (t ≠ x.sys.kernel.currentTask ∧ (x.goto p).point t = x.point t) := by
  by_cases ht : t = x.sys.kernel.currentTask
  · left
    subst ht
    exact ⟨rfl, Function.update_self ..⟩
  · exact .inr ⟨ht, Function.update_of_ne ht ..⟩

/-- The points stay sound when the current task goes to a sound one. -/
theorem Possession.sound_goto (h : Possession x l frames) (hp : p.Sound) (t : Addr) :
    ((x.goto p).point t).Sound := by
  rcases goto_point (x := x) (p := p) t with ⟨-, hpoint⟩ | ⟨-, hpoint⟩
  · rwa [hpoint]
  · rw [hpoint]
    exact h.sound t

/-- What the calls know, when the current task comes to a point at which it knows no more. -/
theorem memory?_goto (hp : p.memory? = none ∨ p.memory? = x.here.memory?)
    (hq : ((x.goto p).point t).memory? = some q) : (x.point t).memory? = some q := by
  rcases goto_point (x := x) (p := p) t with ⟨rfl, hpoint⟩ | ⟨-, hpoint⟩
  · rw [hpoint] at hq
    rcases hp with hp | hp
    · rw [hp] at hq
      cases hq
    · exact hp.symm.trans hq
  · rwa [hpoint] at hq

/-- The call goes on, and its memory stays. -/
theorem Possession.goto (h : Possession x l frames) (hp : p.Sound)
    (hmemory : p.memory? = x.here.memory?) (hframes : p.frames = x.here.frames) :
    Possession (x.goto p) l frames where
  stored := by
    refine h.stored.congr (fun q => or_congr Iff.rfl ?_) fun o f => ?_
    · show (∃ t, ((x.goto p).point t).memory? = some q) ↔ _
      rw [exists_goto (P := fun p => p.memory? = some q), hmemory,
        exists_point (P := fun p => p.memory? = some q)]
    · cases o with
      | first | heap => exact Iff.rfl
      | task q =>
        refine or_congr Iff.rfl ?_
        rw [exists_goto (P := fun p => p.memory? = some q ∧ f ∈ p.frames), hmemory, hframes,
          exists_point (P := fun p => p.memory? = some q ∧ f ∈ p.frames)]
  sound := h.sound_goto hp
  fresh t q hq := h.fresh t q (memory?_goto (.inr hmemory) hq)
  once t u q ht hu := h.once t u q (memory?_goto (.inr hmemory) ht) (memory?_goto (.inr hmemory) hu)
  stack := h.stack

/-- The scheduler changes neither the stacks nor who is reaped. -/
theorem Possession.scheduled (h : Possession x l frames)
    (hstack : sys.kernel.stackBase = x.sys.kernel.stackBase)
    (hunreaped : sys.control.unreaped = x.sys.control.unreaped) :
    Possession { x with sys } l frames := by
  refine ⟨h.stored.congr (fun q => ?_) fun o f => ?_, h.sound, fun t q hq => ?_, h.once,
    fun t ht => ?_⟩
  · show q ∈ sys.control.unreaped ∨ _ ↔ _
    rw [hunreaped]
    exact Iff.rfl
  · cases o with
    | first | heap => exact Iff.rfl
    | task t =>
      show (t ∈ sys.control.unreaped ∧ f ∈ taskFrames sys.kernel t) ∨ _ ↔ _
      rw [hunreaped, taskFrames_congr (congrFun hstack t)]
      exact Iff.rfl
  · show q ≠ 0 ∧ q ∉ sys.control.unreaped
    rw [hunreaped]
    exact h.fresh t q hq
  · show ∃ s, sys.kernel.stackBase t = _ ∧ _
    rw [hstack]
    exact h.stack t (hunreaped ▸ ht)

/-! ## The parts of a call -/

/-- `kmalloc` gives the call a `task_t` that nobody has. -/
theorem Possession.kmalloc (hx : Possession x l frames) (hhere : x.here = .allocating false)
    (hleft : frameLeft x.heap.bitmap = true)
    (hcall : Yields (Pelikan.kmalloc x.heap taskSize) (task, h)) :
    ∃ l' frames', Possession { x.goto (.allocated task) with
      heap := h
      heapFrames := x.heapFrames ∪ (usedFrames h.bitmap \ usedFrames x.heap.bitmap) }
      l' frames' := by
  obtain ⟨hne, hnew, l', frames', hs⟩ := hx.stored.kmalloc hleft hcall
  have hknown : ∀ t q, ((x.goto (.allocated task)).point t).memory? = some q →
      t = x.sys.kernel.currentTask ∧ q = task ∨ (x.point t).memory? = some q := by
    intro t q hq
    rcases goto_point (x := x) (p := .allocated task) t with ⟨ht, hpoint⟩ | ⟨-, hpoint⟩
    · rw [hpoint] at hq
      exact .inl ⟨ht, (Option.some.inj hq).symm⟩
    · rw [hpoint] at hq
      exact .inr hq
  -- nobody else knows the block: it was not in use
  have hunknown : ∀ t, (x.point t).memory? ≠ some task := fun t ht => hnew (.inr ⟨t, ht⟩)
  refine ⟨l', frames', hs.congr (fun q => ?_) fun o f => ?_, hx.sound_goto trivial, ?_, ?_,
    hx.stack⟩
  · show _ ∨ (∃ t, ((x.goto _).point t).memory? = some q) ↔ q = task ∨ _ ∨ _
    rw [exists_goto (P := fun p => p.memory? = some q),
      exists_point (P := fun p => p.memory? = some q), hhere]
    simp only [CreatePoint.memory?, Option.some.injEq, reduceCtorEq, false_or]
    tauto
  · cases o with
    | first => exact (or_iff_left fun hf => by cases hf.1).symm
    | heap => exact or_congr Iff.rfl (and_iff_right rfl).symm
    | task q =>
      refine (or_congr Iff.rfl ?_).trans (or_iff_left fun hf => by cases hf.1).symm
      show (∃ t, ((x.goto _).point t).memory? = some q ∧ f ∈ ((x.goto _).point t).frames) ↔ _
      rw [exists_goto (P := fun p => p.memory? = some q ∧ f ∈ p.frames),
        exists_point (P := fun p => p.memory? = some q ∧ f ∈ p.frames), hhere]
      simp [CreatePoint.frames]
  · intro t q hq
    rcases hknown t q hq with ⟨-, rfl⟩ | hq
    · exact ⟨hne, fun hin => hnew (.inl hin)⟩
    · exact hx.fresh t q hq
  · intro t u q ht hu
    rcases hknown t q ht with ⟨htcur, rfl⟩ | ht'
    · rcases hknown u q hu with ⟨hucur, -⟩ | hu'
      · exact htcur.trans hucur.symm
      · exact absurd hu' (hunknown u)
    · rcases hknown u q hu with ⟨-, rfl⟩ | hu'
      · exact absurd ht' (hunknown t)
      · exact hx.once t u q ht' hu'

/-- `pmm_alloc_contiguous` gives the call two frames that nobody has. -/
theorem Possession.contiguous (hx : Possession x l frames) (hhere : x.here = .reserving task false)
    (hrun : ∃ s, FreeRun x.heap.bitmap 2 s)
    (hcall : pmmAllocContiguous x.heap.bitmap 2 = .ok (base, b)) :
    Possession { x.goto (.reserved task base) with heap := x.heap.withBitmap b } l frames := by
  -- two free frames side by side exist, so the call does not fail
  have hgranted : base ≠ noFrame := by
    rcases pmmAllocContiguous_spec x.heap.bitmap (n := 2) (by decide) with
      ⟨s, b', halloc, hfree, -⟩ | ⟨-, hnone⟩
    · rw [halloc] at hcall
      cases hcall
      have hlt : s + 2 ≤ maxFrames := hfree.1
      exact frameAddr_ne_noFrame (by omega)
    · obtain ⟨s, hs⟩ := hrun
      exact absurd hs (hnone s)
  obtain ⟨s, hbase, hlt, hs⟩ := hx.stored.contiguous hcall hgranted task
  have hmemory : (CreatePoint.reserved task base).memory? = x.here.memory? := by
    rw [hhere]
    rfl
  refine ⟨hs.congr (fun q => or_congr Iff.rfl ?_) fun o f => ?_, hx.sound_goto ⟨s, hbase, hlt⟩,
    fun t q hq => hx.fresh t q (memory?_goto (.inr hmemory) hq), fun t u q ht hu => ?_, hx.stack⟩
  · show (∃ t, ((x.goto _).point t).memory? = some q) ↔ _
    rw [exists_goto (P := fun p => p.memory? = some q), hmemory,
      exists_point (P := fun p => p.memory? = some q)]
  · cases o with
    | first | heap => exact (or_iff_left fun hf => by cases hf.1).symm
    | task q =>
      refine (or_congr Iff.rfl ?_).trans or_assoc.symm
      show (∃ t, ((x.goto _).point t).memory? = some q ∧ f ∈ ((x.goto _).point t).frames) ↔ _
      rw [exists_goto (P := fun p => p.memory? = some q ∧ f ∈ p.frames),
        exists_point (P := fun p => p.memory? = some q ∧ f ∈ p.frames), hhere]
      constructor
      · rintro (⟨hq, hf⟩ | hother)
        · exact .inr ⟨congrArg Owner.task (Option.some.inj hq).symm, hf⟩
        · exact .inl (.inr hother)
      · rintro ((⟨-, hf⟩ | hother) | ⟨hq, hf⟩)
        · exact absurd hf (Finset.notMem_empty f)
        · exact .inr hother
        · exact .inl ⟨congrArg some (Owner.task.inj hq).symm, hf⟩
  · exact hx.once t u q (memory?_goto (.inr hmemory) ht) (memory?_goto (.inr hmemory) hu)

theorem publishTask_stackBase (k : Kernel) (task : Addr) (base id : BitVec 32) :
    (publishTask k task base id).stackBase = Function.update k.stackBase task (base + 4096) := by
  unfold publishTask
  dsimp only
  rw [(enterTask_records ..).1]
  exact Function.update_idem ..

theorem linkTask_stackBase (k : Kernel) (task : Addr) :
    (linkTask k task).stackBase = k.stackBase := (SameRecords.insertTask k task).stackBase

/-- The new task has the frames of the call. -/
theorem taskFrames_publishTask_self (k : Kernel) (task : Addr) (base id : BitVec 32) :
    taskFrames (publishTask k task base id) task = stackFrames (base + 4096) := by
  unfold taskFrames
  rw [publishTask_stackBase, Function.update_self]

theorem taskFrames_publishTask_ne (k : Kernel) (base id : BitVec 32) (hne : q ≠ task) :
    taskFrames (publishTask k task base id) q = taskFrames k q := by
  unfold taskFrames
  rw [publishTask_stackBase, Function.update_of_ne hne]

/-- With the ready queue, the task has its memory itself. -/
theorem Possession.publish (hx : Possession x l frames) (hhere : x.here = .reserved task base) :
    Possession { x.goto (.published task) with
      sys := { kernel := publishTask x.sys.kernel task base id
               control := x.sys.control.create task } } l frames := by
  have hknown : x.here.memory? = some task := by
    rw [hhere]
    rfl
  obtain ⟨-, hnew⟩ := hx.fresh _ _ hknown
  have hsound := hx.sound x.sys.kernel.currentTask
  rw [show x.point x.sys.kernel.currentTask = .reserved task base from hhere] at hsound
  have hstack := publishTask_stackBase x.sys.kernel task base id
  have hmemory : (CreatePoint.published task).memory? = none := rfl
  refine ⟨hx.stored.congr (fun q => ?_) fun o f => ?_, hx.sound_goto trivial, fun t q hq => ?_,
    fun t u q ht hu => ?_, fun t ht => ?_⟩
  · show q ∈ insert task x.sys.control.unreaped ∨
      (∃ t, ((x.goto _).point t).memory? = some q) ↔ _ ∨ _
    rw [exists_goto (P := fun p => p.memory? = some q),
      exists_point (P := fun p => p.memory? = some q), hhere, Finset.mem_insert]
    simp only [CreatePoint.memory?, Option.some.injEq, reduceCtorEq, false_or, eq_comm (a := task)]
    tauto
  · cases o with
    | first | heap => exact Iff.rfl
    | task q =>
      show (q ∈ insert task x.sys.control.unreaped ∧
          f ∈ taskFrames (publishTask x.sys.kernel task base id) q) ∨
        (∃ t, ((x.goto _).point t).memory? = some q ∧ f ∈ ((x.goto _).point t).frames) ↔ _ ∨ _
      rw [exists_goto (P := fun p => p.memory? = some q ∧ f ∈ p.frames),
        exists_point (P := fun p => p.memory? = some q ∧ f ∈ p.frames), hhere, Finset.mem_insert]
      -- the frames that were the call's are the task's now
      by_cases hq : q = task
      · subst hq
        rw [taskFrames_publishTask_self]
        simp only [CreatePoint.memory?, CreatePoint.frames, hnew, reduceCtorEq, true_or, true_and,
          false_and, false_or]
      · rw [taskFrames_publishTask_ne _ _ _ hq]
        simp [CreatePoint.memory?, hq, Ne.symm hq]
  · have hq' := memory?_goto (.inl hmemory) hq
    obtain ⟨hne, hnot⟩ := hx.fresh t q hq'
    refine ⟨hne, fun hin => ?_⟩
    rcases Finset.mem_insert.mp hin with rfl | hin
    · -- the one call that knew the task is no longer in front of the queue
      obtain rfl := hx.once _ _ _ hq' hknown
      have hpoint : (x.goto (.published q)).point x.sys.kernel.currentTask = .published q :=
        Function.update_self ..
      change ((x.goto (.published q)).point _).memory? = _ at hq
      rw [hpoint] at hq
      cases hq
    · exact hnot hin
  · exact hx.once t u q (memory?_goto (.inl hmemory) ht) (memory?_goto (.inl hmemory) hu)
  · show ∃ s, (publishTask x.sys.kernel task base id).stackBase t = _ ∧ _
    rcases Finset.mem_insert.mp ht with rfl | ht
    · obtain ⟨s, hbase, hlt⟩ := hsound
      rw [hstack, Function.update_self, hbase]
      exact ⟨s, rfl, hlt⟩
    · rw [hstack, Function.update_of_ne (ne_of_mem_of_not_mem ht hnew)]
      exact hx.stack t ht

/-! ## The reaper -/

/-- The frame of a new page table is counted with the first ones. -/
theorem Possession.mapped {newTable : Bool} (hx : Possession x l frames)
    (hmaps : Maps x.heap.bitmap newTable b) :
    Stored (x.heap.withBitmap b) l frames x.Block
      fun o f => x.Holds o f ∨ o = .first ∧ f ∈ usedFrames b \ usedFrames x.heap.bitmap := by
  cases newTable with
  | false =>
    obtain rfl : b = x.heap.bitmap := hmaps
    refine Stored.congr (h := x.heap) hx.stored (fun q => Iff.rfl) fun o f => ?_
    rw [Set.sdiff_self]
    exact or_iff_left fun hf => hf.2
  | true =>
    obtain ⟨frame, hcall⟩ := hmaps
    exact hx.stored.table hcall

/-- A task that was linked owns the two frames of its stack, and no others. -/
theorem Possession.holds_task (hx : Possession x l frames)
    (hcorpse : corpse ∈ x.sys.control.unreaped) (f : Nat) :
    x.Holds (.task corpse) f ↔ f ∈ taskFrames x.sys.kernel corpse := by
  constructor
  · rintro (⟨-, hf⟩ | ⟨t, ht, -⟩)
    · exact hf
    · exact absurd hcorpse (hx.fresh t _ ht).2
  · exact fun hf => .inl ⟨hcorpse, hf⟩

/-- The releases of a round go through, with a new page table or without. -/
theorem Possession.reap {newTable : Bool} (hx : Possession x l frames)
    (hcorpse : corpse ∈ x.sys.control.unreaped)
    (hstack : sys.kernel.stackBase = x.sys.kernel.stackBase)
    (hunreaped : sys.control.unreaped = x.sys.control.unreaped.erase corpse)
    (hmaps : Maps x.heap.bitmap newTable b)
    (hrelease : releaseTask (x.heap.withBitmap b) (x.sys.kernel.stackBase corpse) corpse =
      .ok heap) :
    ∃ l', Possession { x with
      sys, heap, usedFirst := x.usedFirst ∪ (usedFrames b \ usedFrames x.heap.bitmap) }
      l' frames := by
  obtain ⟨s, hbase, hlt⟩ := hx.stack corpse hcorpse
  have hfresh : ∀ t, (x.point t).memory? ≠ some corpse := fun t ht => (hx.fresh t _ ht).2 hcorpse
  have howns : ∀ f, (x.Holds (.task corpse) f ∨
      Owner.task corpse = .first ∧ f ∈ usedFrames b \ usedFrames x.heap.bitmap) ↔
      f ∈ stackFrames (frameAddr s + 4096) := by
    intro f
    rw [← hbase]
    exact (or_iff_left fun hf => nomatch hf.1).trans (hx.holds_task hcorpse f)
  obtain ⟨heap', l', hrelease', -, hs⟩ :=
    (hx.mapped hmaps).release (.inl hcorpse) hlt howns
  rw [hbase, hrelease'] at hrelease
  obtain rfl := Except.ok.inj hrelease
  refine ⟨l', hs.congr (fun q => ?_) fun o f => ?_, hx.sound, fun t q hq => ?_, hx.once,
    fun t ht => ?_⟩
  · show q ∈ sys.control.unreaped ∨ _ ↔ _
    rw [hunreaped, Finset.mem_erase]
    constructor
    · rintro (⟨hne, hin⟩ | ⟨t, ht⟩)
      · exact ⟨.inl hin, hne⟩
      · refine ⟨.inr ⟨t, ht⟩, ?_⟩
        rintro rfl
        exact hfresh t ht
    · rintro ⟨hin | ht, hne⟩
      · exact .inl ⟨hne, hin⟩
      · exact .inr ht
  · cases o with
    | first =>
      show f ∈ x.usedFirst ∪ _ ↔ (f ∈ x.usedFirst ∨ _ ∧ _) ∧ _
      simp
    | heap =>
      show f ∈ x.heapFrames ↔ (f ∈ x.heapFrames ∨ _ ∧ _) ∧ _
      simp
    | task q =>
      show (q ∈ sys.control.unreaped ∧ f ∈ taskFrames sys.kernel q) ∨ _ ↔ _
      rw [hunreaped, Finset.mem_erase, taskFrames_congr (congrFun hstack q)]
      constructor
      · rintro (⟨⟨hne, hin⟩, hf⟩ | ⟨t, ht, hf⟩)
        · exact ⟨.inl (.inl ⟨hin, hf⟩), fun heq => hne (Owner.task.inj heq)⟩
        · refine ⟨.inl (.inr ⟨t, ht, hf⟩), fun heq => hfresh t ?_⟩
          rw [← Owner.task.inj heq]
          exact ht
      · rintro ⟨(⟨hin, hf⟩ | ht) | ⟨heq, -⟩, hne⟩
        · exact .inl ⟨⟨fun heq => hne (congrArg Owner.task heq), hin⟩, hf⟩
        · exact .inr ht
        · cases heq
  · obtain ⟨hne, hnot⟩ := hx.fresh t q hq
    refine ⟨hne, fun hin => hnot ?_⟩
    have hin : q ∈ sys.control.unreaped := hin
    rw [hunreaped] at hin
    exact Finset.mem_of_mem_erase hin
  · show ∃ s, sys.kernel.stackBase t = _ ∧ _
    rw [hstack]
    have ht : t ∈ sys.control.unreaped := ht
    rw [hunreaped] at ht
    exact hx.stack t (Finset.mem_of_mem_erase ht)

/-- A store that leaves the headers of the heap alone. -/
theorem Possession.store (hx : Possession x l frames) {mem : ByteMemory}
    (hmem : ∀ a, a / 4096 ∈ x.heapFrames → (∀ t, x.Block t → a < t ∨ t + taskSize ≤ a) →
      mem a = x.heap.mem a) :
    Possession { x with heap := { x.heap with mem } } l frames where
  stored := hx.stored.store fun a ha hout => hmem a ((hx.stored.heap _).mpr ha) hout
  sound := hx.sound
  fresh := hx.fresh
  once := hx.once
  stack := hx.stack

end

end Pelikan

end SystemsProjects

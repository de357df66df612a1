import SystemsProjects.Pelikan.CreateMemory

/-!
# Preemption inside `create_task`

`create_task` puts the new task into the ready queue first and onto the circular list second, each
with interrupts off, and interrupts are on in between. Neither are they off in `kmalloc` and in
`pmm_alloc_contiguous`. Between the parts of a call that these make, nobody else knows the new task,
so that it does not matter where the timer comes there.

- `LinkPromise`: the reaper unlinks a task that is on the list, and `insert_task` links one whose
  memory was not freed.
- `linked_before_reaped`: runs keep the promise when the timer never comes in an allocation or
  between the two parts that link the task, and the allocations succeed.
- `not_linked_brokenCall`: one interrupt between the two parts is enough to link a freed task.

The proof brings such a run back to the kernel with whole calls. `Whole` has two cases: the
state is one of that kernel, or the current task is in the middle of its two halves, just behind
such a state, and has not been interrupted. What the reaper relies on then comes from the
invariants of `TaskRing`, and that the new block is none of theirs from `CreateMemory`. In
`brokenCall` the second case fails: the creator is preempted behind the first half, and the task
is dispatched, dies and is reaped.
-/

namespace SystemsProjects

namespace Pelikan

open TransitionSystem

/-- What the two functions rely on. -/
structure LinkPromise (x : Creating) (act : CreateAction) (x' : Creating) : Prop where
  /-- The task that the reaper unlinks is on the list, and so are its neighbours. -/
  unlinks : ∀ newTable corpse, act = .reaper newTable →
    x'.sys.control = x.sys.control.reap corpse →
    ∃ l, x.sys.kernel.InRing l ∧ corpse ∈ l ∧
      x.sys.kernel.next corpse ∈ l ∧ x.sys.kernel.next corpse ≠ 0 ∧
      x.sys.kernel.prev corpse ∈ l ∧ x.sys.kernel.prev corpse ≠ 0
  /-- The task that is linked has not been freed. -/
  links : ∀ task, act = .link → x.here = .published task →
    task ∈ x.sys.control.unreaped ∧ BlockInUse x.heap task

/-- Where the timer breaks a call: in an allocation, and between the ready queue and the list. -/
def CreatePoint.critical : CreatePoint → Bool
  | .allocating _ | .reserving .. | .published _ => true
  | _ => false

/-- The step is no timer interrupt in such a place. An allocation finds a frame, or two. -/
def Unbroken (x : Creating) : CreateAction → Prop
  | .timer => x.here.critical = false
  | .kmalloc => frameLeft x.heap.bitmap = true
  | .contiguous => ∃ s, FreeRun x.heap.bitmap 2 s
  | _ => True

/-! ## Runs without such an interrupt -/

/-- The state is one of the kernel with whole calls, or a call is half-way behind one. -/
inductive Whole (x : Creating) : Prop where
  | between (hreach : taskSystem.Reachable x.sys) (hpoint : ∀ t task, x.point t ≠ .published task)
  | inside {s : Sys} {task : Addr} {base id : BitVec 32} (hreach : taskSystem.Reachable s)
    (hcall : s.control.phase = .boot ∨ s.MayCall) (hne : task ≠ 0)
    (hfresh : task ∉ s.control.unreaped)
    (hsys : x.sys =
      { kernel := publishTask s.kernel task base id, control := s.control.create task })
    (hhere : x.here = .published task)
    (hpoint : ∀ t, t ≠ x.sys.kernel.currentTask → ∀ task, x.point t ≠ .published task)

/-- `kmain` calls, or a task that is in no `mutex_lock` and is not the reaper. -/
def Callers (x : Creating) : Prop :=
  ∀ t, x.point t ≠ .outside →
    (x.sys.control.phase = .boot ∧ t = x.sys.kernel.currentTask) ∨
      (x.sys.control.point t = .outside ∧ t ≠ x.sys.kernel.reaperTask)

section

variable {x x' : Creating} {s s' : Sys} {act : Action} {a : CreateAction} {p : CreatePoint}
  {l : List Block} {frames : Finset Nat} {task : Addr} {base id : U32}

theorem linkTask_reaperTask (k : Kernel) (task : Addr) :
    (linkTask k task).reaperTask = k.reaperTask := (SameRecords.insertTask k task).reaperTask

theorem linkTask_currentTask (k : Kernel) (task : Addr) :
    (linkTask k task).currentTask = k.currentTask := insertTask_currentTask k task

/-- A task keeps its place in `mutex_lock` while others run. -/
theorem point_eq_outside (hreach : taskSystem.Reachable s) (hstep : s.step act = some s')
    {t : Addr} (ht : act = .timer ∨ act = .dispatch ∨ t ≠ s.kernel.currentTask)
    (hpoint : s.control.point t = .outside ∧ t ≠ s.kernel.reaperTask) :
    s'.control.point t = .outside ∧ t ≠ s'.kernel.reaperTask := by
  obtain ⟨a, hareach, hsim⟩ := taskSystem_simulated hreach
  obtain ⟨a', hstep', hsim'⟩ := hsim.step (Model.wellPlaced_of_reachable hareach) hstep
  rw [hsim.2, hsim.1.reaper] at hpoint
  rw [hsim.1.current] at ht
  rw [hsim'.2, hsim'.1.reaper]
  cases hstep' with
  | create =>
    refine ⟨?_, hpoint.2⟩
    show Function.update a.control.point _ .outside t = .outside
    rw [Function.update_apply]
    split
    · rfl
    · exact hpoint.1
  | acquire hlocks | block hlocks =>
    have hne : t ≠ a.current := by
      rcases ht with rfl | rfl | hne
      · cases hlocks
      · cases hlocks
      · exact hne
    refine ⟨?_, hpoint.2⟩
    show Function.update a.control.point a.current _ t = .outside
    rw [Function.update_of_ne hne]
    exact hpoint.1
  | _ => exact hpoint

/-! ## The callers -/

/-- The scheduler, the reaper and the timer leave the callers alone. -/
theorem Callers.scheduled (h : Callers x) (hreach : taskSystem.Reachable x.sys)
    (hstep : x.sys.step act = some s')
    (hhere : act = .timer ∨ act = .dispatch ∨ x.here = .outside) :
    Callers { x with sys := s' } := by
  intro t ht
  rcases h t ht with ⟨hboot, rfl⟩ | hpoint
  · -- in `kmain` neither the timer nor `schedule` is there
    rcases hhere with rfl | rfl | hhere
    · obtain ⟨hrunning, -⟩ := Option.ite_none_right_eq_some.mp hstep
      exact absurd (hboot.symm.trans hrunning.1) (by simp)
    · obtain ⟨hscheduling, -⟩ := Option.ite_none_right_eq_some.mp hstep
      rw [hboot] at hscheduling
      cases hscheduling
    · exact absurd hhere ht
  · refine .inr (point_eq_outside hreach hstep (hhere.imp_right fun hhere => ?_) hpoint)
    refine hhere.imp_right fun hhere => ?_
    rintro rfl
    exact ht hhere

/-- The caller goes on, or returns. -/
theorem Callers.goto (h : Callers x) (hp : p = .outside ∨ x.here ≠ .outside) :
    Callers (x.goto p) := by
  intro t ht
  rcases goto_point (x := x) (p := p) t with ⟨rfl, hpoint⟩ | ⟨-, hpoint⟩
  · rw [hpoint] at ht
    exact h _ (hp.resolve_left ht)
  · rw [hpoint] at ht
    exact h t ht

/-- A task that enters `create_task` is in no `mutex_lock`. -/
theorem Callers.call (h : Callers x) (hcall : x.sys.control.phase = .boot ∨ x.sys.MayCall) :
    Callers (x.goto p) := by
  intro t ht
  rcases goto_point (x := x) (p := p) t with ⟨rfl, -⟩ | ⟨-, hpoint⟩
  · rcases hcall with hboot | hcall
    · exact .inl ⟨hboot, rfl⟩
    · exact .inr ⟨hcall.1.2, hcall.2⟩
  · rw [hpoint] at ht
    exact h t ht

/-- With the CPU, a caller may make the whole call. -/
theorem Callers.mayCall (h : Callers x) (hcpu : x.HasCpu) (hhere : x.here ≠ .outside) :
    x.sys.control.phase = .boot ∨ x.sys.MayCall := by
  rcases h _ hhere with ⟨hboot, -⟩ | ⟨hpoint, hreaper⟩
  · exact .inl hboot
  · unfold Creating.HasCpu at hcpu
    cases hphase : x.sys.control.phase with
    | boot => exact .inl rfl
    | scheduling => exact absurd hphase hcpu
    | running => exact .inr ⟨⟨hphase, hpoint⟩, hreaper⟩

/-! ## Steps -/

/-- The point of `publish` comes with that step only. -/
theorem not_published_goto (h : ∀ t task, x.point t ≠ .published task)
    (hp : ∀ task, p ≠ .published task) (t task : Addr) :
    (x.goto p).point t ≠ .published task := by
  rcases goto_point (x := x) (p := p) t with ⟨-, hpoint⟩ | ⟨-, hpoint⟩
  · rw [hpoint]
    exact hp task
  · rw [hpoint]
    exact h t task

/-- Behind a half-way call comes its second half, or an interrupt, or a store. -/
theorem inside_step (hhere : x.here = .published task) (hphase : x.HasCpu)
    (hstep : CreateStep x a x') : a = .link ∨ a = .timer ∨ a = .store := by
  have hout : x.here ≠ .outside := by simp [hhere]
  cases hstep with
  | other hother htimer hpoint hstep =>
    rcases hpoint with rfl | hpoint
    · obtain ⟨hscheduling, -⟩ := Option.ite_none_right_eq_some.mp hstep
      exact absurd hscheduling hphase
    · exact absurd hpoint hout
  | timer => exact .inr (.inl rfl)
  | sleep hpoint | reap hpoint => exact absurd hpoint hout
  | store => exact .inr (.inr rfl)
  | callKmalloc hcall hpoint => exact absurd hpoint hout
  | kmalloc hcpu hpoint | kmallocPreempted hcpu hpoint | callContiguous hcpu hpoint
  | contiguous hcpu hpoint | contiguousPreempted hcpu hpoint | publish hcpu hpoint =>
    rw [hhere] at hpoint
    cases hpoint
  | link => exact .inl rfl

/-- Inside an unbroken call the caller has the CPU. -/
theorem Whole.hasCpu_of_inside {s : Sys} (hcall : s.control.phase = .boot ∨ s.MayCall)
    (hsys : x.sys =
      { kernel := publishTask s.kernel task base id, control := s.control.create task }) :
    x.HasCpu := by
  have hphase : x.sys.control.phase = s.control.phase := by
    rw [hsys]
    rfl
  unfold Creating.HasCpu
  rw [hphase]
  rcases hcall with hboot | hcall
  · rw [hboot]
    simp
  · rw [hcall.1.1]
    simp

/-- Behind a half-way call the state is that of a call made at once. -/
theorem Whole.step (h : Whole x) (hx : Possession x l frames) (hcallers : Callers x)
    (hbreak : Unbroken x a) (hstep : CreateStep x a x') : Whole x' := by
  cases h with
  | between hreach hpoint =>
    cases hstep with
    | other hother htimer hhere hstep => exact .between (.step hreach hstep) hpoint
    | timer hstep hheap =>
      refine .between (.step hreach hstep) (not_published_goto hpoint fun task heq => ?_)
      -- the point was not that of `publish` before
      have hsame : x.here = .published task := by
        cases hhere : x.here <;> rw [hhere] at heq <;> cases heq
        rfl
      exact hpoint _ task hsame
    | sleep hhere hstep => exact .between (.step hreach hstep) hpoint
    | reap hhere hstep => exact .between (.step hreach hstep) hpoint
    | store => exact .between hreach hpoint
    | callKmalloc | kmalloc | kmallocPreempted | callContiguous | contiguous
    | contiguousPreempted => exact .between hreach (not_published_goto hpoint (by simp))
    | @publish task base id hcpu hhere =>
      have hknown : x.here.memory? = some task := by
        rw [hhere]
        rfl
      obtain ⟨hne, hfresh⟩ := hx.fresh _ _ hknown
      refine .inside hreach (hcallers.mayCall hcpu (by simp [hhere])) hne hfresh rfl
        (Function.update_self ..) fun t ht task' => ?_
      have ht : t ≠ x.sys.kernel.currentTask := ht
      show Function.update x.point x.sys.kernel.currentTask _ t ≠ _
      rw [Function.update_of_ne ht]
      exact hpoint t task'
    | link hcpu hhere => exact absurd hhere (hpoint _ _)
  | @inside s task base id hreach hcall hne hfresh hsys hhere hpoint =>
    rcases inside_step hhere (Whole.hasCpu_of_inside hcall hsys) hstep with rfl | rfl | rfl
    · cases hstep with
      | @link task' hcpu hhere' =>
        obtain rfl := CreatePoint.published.inj (hhere.symm.trans hhere')
        -- now the call has done what it does at once
        have hcreate : s.step (.createTask task base id) =
            some { kernel := createTask s.kernel task base id 0,
                   control := s.control.create task } := if_pos ⟨hcall, hne, hfresh⟩
        refine .between ?_ fun t task' => ?_
        · show taskSystem.Reachable { x.sys with kernel := linkTask x.sys.kernel task }
          rw [hsys]
          exact .step hreach hcreate
        · show (x.goto .outside).point t ≠ _
          rcases goto_point (x := x) (p := .outside) t with ⟨-, heq⟩ | ⟨ht, heq⟩
          · rw [heq]
            simp
          · rw [heq]
            exact hpoint t ht task'
    · have hcritical : x.here.critical = false := hbreak
      rw [hhere] at hcritical
      cases hcritical
    · cases hstep with
      | store => exact .inside hreach hcall hne hfresh hsys hhere hpoint

/-- The promise holds of every step that comes. -/
theorem Whole.promise (h : Whole x) (hx : Possession x l frames) (hstep : CreateStep x a x') :
    LinkPromise x a x' := by
  cases h with
  | between hreach hpoint =>
    constructor
    · rintro newTable corpse rfl hcontrol
      -- a corpse is unlinked: its neighbours are in the ring with it
      have hsys : x.sys.step .reaperRound = some x'.sys := by
        cases hstep with
        | sleep hhere hstep | reap hhere hstep => exact hstep
      rcases reaperRound_cases hreach hsys with ⟨-, hslept⟩ | ⟨corpse', hcorpse, -, -, -, hreap⟩
      · rw [hslept] at hcontrol
        have hevent := (List.cons.inj (congrArg Control.trace hcontrol)).1
        cases hevent
      · rw [hreap] at hcontrol
        have hevent := (List.cons.inj (congrArg Control.trace hcontrol)).1
        obtain rfl := Event.reaped.inj hevent
        obtain ⟨ring, hring, hmem⟩ := ringHolds_of_reachable hreach
        have hin := (hmem corpse').mpr hcorpse
        obtain ⟨hnext, hprev⟩ := hring.circle.neighbours hin
        exact ⟨ring, hring, hin, hnext, hring.ne_zero _ hnext, hprev, hring.ne_zero _ hprev⟩
    · rintro task rfl hhere
      exact absurd hhere (hpoint _ task)
  | @inside s task base id hreach hcall hne hfresh hsys hhere hpoint =>
    have hcases := inside_step hhere (Whole.hasCpu_of_inside hcall hsys) hstep
    constructor
    · rintro newTable corpse rfl
      rcases hcases with heq | heq | heq <;> cases heq
    · rintro task' - hhere'
      -- the task that is linked lies in a block of the heap
      obtain rfl := CreatePoint.published.inj (hhere.symm.trans hhere')
      have hin : task ∈ x.sys.control.unreaped := by
        rw [hsys]
        exact Finset.mem_insert_self ..
      refine ⟨hin, hx.stored.cells.shape.blockInUse_iff.mpr ?_⟩
      exact (hx.stored.inUse task).mpr (.inl hin)

/-- The memory of the tasks and the calls, step by step. -/
theorem Possession.step (hx : Possession x l frames) (hreach : a ≠ .store → a ≠ .link →
    taskSystem.Reachable x.sys) (hbreak : Unbroken x a) (hstep : CreateStep x a x') :
    ∃ l' frames', Possession x' l' frames' := by
  cases hstep with
  | other hother htimer hhere hstep =>
    obtain ⟨hstack, hunreaped⟩ := hother.keeps hstep
    exact ⟨l, frames, hx.scheduled hstack hunreaped⟩
  | @timer sys heap heapFrames hstep hheap =>
    have hcritical : x.here.critical = false := hbreak
    obtain ⟨hstack, hunreaped⟩ := @Action.Other.keeps _ _ .timer trivial hstep
    -- outside of the allocators the timer changes nothing about the call
    have houtside : x.here.inAllocator = false ∧ x.here.interrupted = x.here := by
      cases hhere : x.here <;> simp [hhere, CreatePoint.critical] at hcritical <;> exact ⟨rfl, rfl⟩
    obtain ⟨rfl, rfl⟩ := hheap houtside.1
    have hsame := hx.goto (hx.sound _) rfl rfl
    rw [houtside.2]
    exact ⟨l, frames, hsame.scheduled hstack hunreaped⟩
  | @sleep sys newTable hhere hstep hnone =>
    obtain ⟨hkernel, ⟨-, hunreaped⟩ | ⟨corpse, hcorpse, hne, -⟩⟩ :=
      reaperRound_step (hreach (by simp) (by simp)) hstep
    · refine ⟨l, frames, hx.scheduled ?_ hunreaped⟩
      rw [hkernel]
      exact (SameRecords.reaperRound _).stackBase
    · exact absurd (hcorpse.symm.trans hnone) hne
  | @reap sys newTable b corpse heap hhere hstep hcorpse hne hmaps hrelease =>
    obtain ⟨hkernel, ⟨hnone, -⟩ | ⟨corpse', hcorpse', -, hmem, hunreaped, -⟩⟩ :=
      reaperRound_step (hreach (by simp) (by simp)) hstep
    · exact absurd (hcorpse.symm.trans hnone) hne
    · obtain rfl := hcorpse'.symm.trans hcorpse
      have hstack : sys.kernel.stackBase = x.sys.kernel.stackBase := by
        rw [hkernel]
        exact (SameRecords.reaperRound _).stackBase
      obtain ⟨l', hx'⟩ := hx.reap hmem hstack hunreaped hmaps hrelease
      exact ⟨l', frames, hx'⟩
  | store hmem => exact ⟨l, frames, hx.store hmem⟩
  | callKmalloc hcall hhere =>
    exact ⟨l, frames, hx.goto rfl (by rw [hhere]; rfl) (by rw [hhere]; rfl)⟩
  | kmalloc hcpu hhere hcall => exact hx.kmalloc hhere hbreak hcall
  | kmallocPreempted hcpu hhere =>
    have hsound := hx.sound x.sys.kernel.currentTask
    rw [show x.point _ = _ from hhere] at hsound
    cases hsound
  | callContiguous hcpu hhere =>
    exact ⟨l, frames, hx.goto rfl (by rw [hhere]; rfl) (by rw [hhere]; rfl)⟩
  | contiguous hcpu hhere hcall => exact ⟨l, frames, hx.contiguous hhere hbreak hcall⟩
  | contiguousPreempted hcpu hhere =>
    have hsound := hx.sound x.sys.kernel.currentTask
    rw [show x.point _ = _ from hhere] at hsound
    cases hsound
  | publish hcpu hhere => exact ⟨l, frames, hx.publish hhere⟩
  | link hcpu hhere =>
    refine ⟨l, frames, ?_⟩
    have hback := hx.goto (p := .outside) trivial (by rw [hhere]; rfl) (by rw [hhere]; rfl)
    exact hback.scheduled (linkTask_stackBase ..) rfl

/-- Where the calls of `create_task` come from, over a step. -/
theorem Callers.step (h : Callers x) (hreach : a ≠ .store → a ≠ .link →
    taskSystem.Reachable x.sys) (hstep : CreateStep x a x') : Callers x' := by
  cases hstep with
  | other hother htimer hhere hstep =>
    exact h.scheduled (hreach (by simp) (by simp)) hstep (.inr hhere)
  | timer hstep hheap =>
    have hgone : x.here.interrupted = .outside ∨ x.here ≠ .outside := by
      cases x.here <;> simp [CreatePoint.interrupted]
    exact (h.goto hgone).scheduled (hreach (by simp) (by simp)) hstep (.inl rfl)
  | sleep hhere hstep | reap hhere hstep =>
    exact h.scheduled (hreach (by simp) (by simp)) hstep (.inr (.inr hhere))
  | store => exact h
  | callKmalloc hcall hhere => exact h.call hcall
  | kmalloc hcpu hhere | kmallocPreempted hcpu hhere | callContiguous hcpu hhere
  | contiguous hcpu hhere | contiguousPreempted hcpu hhere =>
    exact h.goto (.inr (by simp [hhere]))
  | @publish task base id hcpu hhere =>
    intro t ht
    refine (h.goto (p := .published task) (.inr (by simp [hhere])) t ht).imp_right fun hpoint => ?_
    refine ⟨?_, hpoint.2⟩
    show Function.update x.sys.control.point task .outside t = .outside
    rw [Function.update_apply, show x.sys.control.point t = .outside from hpoint.1, ite_self]
  | @link task hcpu hhere =>
    intro t ht
    show _ ∧ t = (linkTask x.sys.kernel task).currentTask ∨
      _ ∧ t ≠ (linkTask x.sys.kernel task).reaperTask
    rw [linkTask_currentTask, linkTask_reaperTask]
    exact h.goto (p := .outside) (.inl rfl) t ht

/-- The step of a task, of the reaper or of the scheduler comes in a state of the kernel. -/
theorem Whole.reachable (h : Whole x) (hbreak : Unbroken x a) (hstep : CreateStep x a x')
    (hstore : a ≠ .store) (hlink : a ≠ .link) : taskSystem.Reachable x.sys := by
  cases h with
  | between hreach => exact hreach
  | @inside s task base id hreach hcall hne hfresh hsys hhere hpoint =>
    rcases inside_step hhere (Whole.hasCpu_of_inside hcall hsys) hstep with rfl | rfl | rfl
    · exact absurd rfl hlink
    · have hcritical : x.here.critical = false := hbreak
      rw [hhere] at hcritical
      cases hcritical
    · exact absurd rfl hstore

end

end Pelikan

end SystemsProjects

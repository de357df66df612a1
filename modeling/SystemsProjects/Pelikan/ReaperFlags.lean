import SystemsProjects.Pelikan.TaskRefinement

/-!
# The reaper and the interrupt flag (`reaper_thread`)

The runs of the kernel with the interrupt-enable flag: the CPU's, the one in the EFLAGS word that
`swtch` has pushed for each task and for the scheduler, and the ones that the timer interrupt and
`mutex_lock` keep for later. The loop of the reaper saves the flag at the top of every round, and
restores it only when it has found nobody in the dead queue.

- `Model.CorpseWaits`: the reaper is not awake without a corpse until it has freed one.
- `reaper_yields_disabled`: so it has freed one, and cleared the flag for good, each time that it
  reaches its `yield`.

Why the flag is off is not local to the reaper. In the first round it finds nobody and goes to
sleep with the flag it had; it is woken by the death of a task, so the next round frees a
corpse, and from then on the saved flag is the cleared one. `CorpseWaits` is the part about the
model, `Disabled` the part about the flag, and `MidRound` the state of the kernel in front of
the `yield`, which is none of a whole round.
-/

namespace SystemsProjects

namespace Pelikan

/-! ## Until the first corpse has been freed -/

namespace Model

/-- As long as nobody has been freed, an awake reaper has somebody to free. -/
def CorpseWaits (a : Model) : Prop :=
  (∀ t, .reaped t ∉ a.control.trace) → a.state a.reaper ≠ .blocked → a.dead ≠ []

variable {a a' : Model} {act : Action}

/-- A step that wakes nobody and frees nobody. -/
theorem CorpseWaits.keep (h : a.CorpseWaits) (htrace : a.control.trace <:+ a'.control.trace)
    (hawake : a'.state a'.reaper ≠ .blocked → a.state a.reaper ≠ .blocked)
    (hdead : a'.dead = a.dead) : a'.CorpseWaits := by
  intro hnone hstate
  rw [hdead]
  exact h (fun t ht => hnone t (htrace.subset ht)) (hawake hstate)

/-- The reaper is woken by the death of a task, so whoever wakes it has left a corpse. -/
theorem CorpseWaits.step (h : a.CorpseWaits) (hinv : a.WellPlaced) (hstep : a.Step act a') :
    a'.CorpseWaits := by
  cases hstep with
  | @create task base id hcall hne hfresh =>
    refine h.keep (List.suffix_cons ..) (fun hstate => ?_) rfl
    have hother : a.reaper ≠ task := fun heq => hfresh (heq ▸ hinv.coherent.reaper_mem)
    change Function.update a.state task .ready a.reaper ≠ .blocked at hstate
    rwa [Function.update_of_ne hother] at hstate
  | schedule hphase => exact h.keep (List.suffix_refl _) id rfl
  | @dispatch task rest hphase hready =>
    refine h.keep (List.suffix_cons ..) (fun hstate => ?_) rfl
    change Function.update a.state task .running a.reaper ≠ .blocked at hstate
    by_cases heq : a.reaper = task
    · -- it was ready
      have hlist := hready ▸ hinv.queued.ready
      rw [heq, hlist.head.2]
      exact nofun
    · rwa [Function.update_of_ne heq] at hstate
  | timer hout =>
    refine h.keep (List.suffix_cons ..) (fun hstate => ?_) rfl
    change Function.update a.state a.current .ready a.reaper ≠ .blocked at hstate
    by_cases heq : a.reaper = a.current
    · rw [heq, hinv.coherent.current_running hout.1]
      exact nofun
    · rwa [Function.update_of_ne heq] at hstate
  | exitWaking hcall hreaper =>
    -- the corpse was pushed in the same step
    intro _ _
    exact List.append_ne_nil_of_right_ne_nil _ (List.cons_ne_nil _ _)
  | exit hcall hreaper =>
    intro _ _
    exact List.append_ne_nil_of_right_ne_nil _ (List.cons_ne_nil _ _)
  | acquire hlocks hfree => exact h.keep (List.suffix_cons ..) id rfl
  | block hlocks howner =>
    refine h.keep (List.suffix_cons ..) (fun hstate => ?_) rfl
    -- the reaper calls no `mutex_lock`, so it is not the one that blocks
    have hother := (hlocks.current_ne_reaper hinv.coherent).symm
    change Function.update a.state a.current .blocked a.reaper ≠ .blocked at hstate
    rwa [Function.update_of_ne hother] at hstate
  | @unlockWaking lock task rest hcall hwait =>
    refine h.keep (List.suffix_cons ..) (fun hstate => ?_) rfl
    -- nor is it the task that is woken
    have hother : a.reaper ≠ task := ((hwait ▸ hinv.queued.wait lock).head).2.2.1.symm
    change Function.update a.state task .ready a.reaper ≠ .blocked at hstate
    rwa [Function.update_of_ne hother] at hstate
  | unlock hcall hwait => exact h.keep (List.suffix_cons ..) id rfl
  | @reap corpse rest hout hreaper hdead =>
    -- somebody has been freed now
    intro hnone
    exact absurd (List.mem_cons_self ..) (hnone corpse)
  | sleep hout hreaper hdead =>
    -- the reaper is blocked now
    intro _ hstate
    exact absurd (Function.update_self ..) hstate

theorem corpseWaits_of_reachable (h : system.Reachable a) : a.CorpseWaits := by
  refine h.invariant (P := CorpseWaits) ?_ ?_
  · rintro _ ⟨reaper, -, rfl⟩ _ hstate
    exact absurd rfl hstate
  · intro a act a' hreach hwaits hstep
    exact hwaits.step (wellPlaced_of_reachable hreach) hstep

end Model

/-! ## The flag -/

/-- `save_flags_and_cli`: the flag that is returned, and the one afterwards. -/
def saveFlagsAndCli (flag : Bool) : Bool × Bool := (flag, false)

/-- `restore_flags` -/
def restoreFlags (flags : Bool) : Bool := flags

/-- A function that saves the flag when it is called and restores it before it returns, such as
`remove_task_from_dead_queue`, `remove_task_from_circular_list` and `print`. -/
def withFlagsSaved (flag : Bool) : Bool := restoreFlags (saveFlagsAndCli flag).1

@[simp] theorem withFlagsSaved_eq (flag : Bool) : withFlagsSaved flag = flag := rfl

/-- The flag in the EFLAGS word that `create_task` puts on the stack. -/
def createdFlag : Bool := (0x202 : BitVec 32).getLsbD 9

/-- The flag when the loop of `reaper_thread` gets to its `yield`, or to its top again. -/
def reaperLoopFlag (corpse : Addr) (flag : Bool) : Bool :=
  let (flags, flag) := saveFlagsAndCli flag
  -- `remove_task_from_dead_queue`
  let flag := withFlagsSaved flag
  if corpse = 0 then restoreFlags flags
  else
    -- `remove_task_from_circular_list`, and the message of `kfree`
    let flag := withFlagsSaved flag
    withFlagsSaved flag

/-- A state of a run with the flags. -/
structure FlagSys where
  sys : Sys
  /-- The CPU's interrupt flag. -/
  flag : Bool
  /-- What `swtch` has pushed for the scheduler. -/
  scheduler : Bool
  /-- What `swtch` has pushed for each task. -/
  saved : Addr → Bool
  /-- The task was interrupted by the timer, and has not returned from the handler. -/
  interrupted : Addr → Bool
  /-- `flags` in the `mutex_lock` of each task. -/
  lockFlags : Addr → Bool
  /-- The reaper has executed its `sti`. -/
  started : Bool
  /-- The reaper has restored its flags and is about to call `yield`. -/
  atYield : Bool

/-- Steps: those of the kernel, and those that the flag is looked at in. -/
inductive FlagAction where
  | task (act : Action)
  /-- `sti` or `cli` in the code of an ordinary task. -/
  | code (flag : Bool)
  | sti
  | reaperLoop
  | reaperYield

namespace FlagSys

/-- `swtch` from the current task to the scheduler, with this flag. -/
def leave (s : FlagSys) (flag : Bool) (sys : Sys) : FlagSys :=
  { s with
    sys
    saved := Function.update s.saved s.sys.kernel.currentTask flag
    flag := s.scheduler }

/-- `swtch` from the scheduler to the task; a task that was interrupted goes on to the `iret`,
which enables interrupts again. -/
def resume (s : FlagSys) (sys : Sys) : FlagSys :=
  let t := sys.kernel.currentTask
  { s with
    sys
    scheduler := s.flag
    flag := if s.interrupted t then true else s.saved t
    interrupted := Function.update s.interrupted t false }

/-- What the loop of `mutex_lock` leaves: it returns and restores `flags`, or the task yields with
interrupts off. -/
def lock (s : FlagSys) (flags : Bool) (sys : Sys) : FlagSys :=
  let s := { s with lockFlags := Function.update s.lockFlags s.sys.kernel.currentTask flags }
  if sys.control.phase = .running then { s with sys, flag := restoreFlags flags }
  else s.leave (saveFlagsAndCli flags).2 sys

/-- The loop of `reaper_thread` from its top to its `yield`, or round to its top. -/
def reaperLoop (s : FlagSys) : FlagSys :=
  let (corpse, kernel) := removeTaskFromDeadQueue s.sys.kernel
  let s := { s with flag := reaperLoopFlag corpse s.flag }
  if corpse = 0 then
    { s with
      sys := { s.sys with kernel := setState kernel kernel.reaperTask .blocked }
      atYield := true }
  else
    { s with sys := {
        kernel := removeTaskFromCircularList kernel corpse
        control := s.sys.control.reap corpse } }

/-- The step function. The timer interrupts a task only while the flag is set. -/
def step (s : FlagSys) : FlagAction → Option FlagSys
  | .task act =>
    match act with
    | .createTask task _ _ => (s.sys.step act).map fun sys =>
        { s with
          sys
          saved := Function.update s.saved task createdFlag
          interrupted := Function.update s.interrupted task false }
    | .schedule => (s.sys.step act).map fun sys => { s with sys }
    | .dispatch => (s.sys.step act).map s.resume
    | .timer =>
      if s.flag then (s.sys.step act).map fun sys =>
        { s.leave false sys with
          interrupted := Function.update s.interrupted s.sys.kernel.currentTask true }
      else none
    | .threadExit => (s.sys.step act).map (s.leave s.flag)
    | .mutexLock _ => (s.sys.step act).map (s.lock s.flag)
    | .resumeLock => (s.sys.step act).map (s.lock (s.lockFlags s.sys.kernel.currentTask))
    | .mutexUnlock _ =>
      (s.sys.step act).map fun sys => { s with sys, flag := withFlagsSaved s.flag }
    | .reaperRound => none
  | .code flag => if s.sys.MayCall then some { s with flag } else none
  | .sti =>
    if s.sys.Outside ∧ s.sys.kernel.currentTask = s.sys.kernel.reaperTask ∧ s.started = false then
      some { s with flag := true, started := true }
    else none
  | .reaperLoop =>
    if s.sys.Outside ∧ s.sys.kernel.currentTask = s.sys.kernel.reaperTask ∧ s.started = true ∧
        s.atYield = false then some s.reaperLoop
    else none
  | .reaperYield =>
    if s.sys.Outside ∧ s.sys.kernel.currentTask = s.sys.kernel.reaperTask ∧ s.atYield = true then
      some { s.leave s.flag {
          kernel := yield s.sys.kernel
          control := (s.sys.control.record .slept).toScheduler } with atYield := false }
    else none

/-- `kmain` has interrupts off. -/
def init (reaper : Addr) (base : BitVec 32) : FlagSys where
  sys := Sys.init reaper base
  flag := false
  scheduler := false
  saved _ := createdFlag
  interrupted _ := false
  lockFlags _ := false
  started := false
  atYield := false

/-- The state behind `spawn_reaper`. -/
def Initial (s : FlagSys) : Prop := ∃ reaper base, reaper ≠ 0 ∧ s = init reaper base

end FlagSys

/-- The runs of the kernel with the interrupt flag. -/
def flagSystem : TransitionSystem FlagSys FlagAction := .ofFunction FlagSys.Initial FlagSys.step

/-! ## What a step of the kernel says about the reaper -/

open Model

section

variable {s s' : Sys} {act : Action}

/-- Some task has been freed. -/
def Sys.Reaped (s : Sys) : Prop := ∃ t, .reaped t ∈ s.control.trace

/-- The reaper has the CPU. -/
def Sys.ReaperRuns (s : Sys) : Prop :=
  s.control.phase = .running ∧ s.kernel.currentTask = s.kernel.reaperTask

/-- Steps that neither dispatch nor free a task. -/
structure SameReaper (s s' : Sys) : Prop where
  current : s'.kernel.currentTask = s.kernel.currentTask
  reaper : s'.kernel.reaperTask = s.kernel.reaperTask
  reaped : s'.Reaped ↔ s.Reaped
  running : s'.control.phase = .running → s.control.phase = .running

/-- Only a dispatch changes who runs, only a round of the reaper who is reaped. -/
theorem Model.Step.sameReaper {a a' : Model} (hstep : a.Step act a') (hdispatch : act ≠ .dispatch)
    (hround : act ≠ .reaperRound) :
    a'.current = a.current ∧ a'.reaper = a.reaper ∧
      (∀ t, .reaped t ∈ a'.control.trace ↔ .reaped t ∈ a.control.trace) ∧
      (a'.control.phase = .running → a.control.phase = .running) := by
  cases hstep with
  | create | timer | exitWaking | exit | unlockWaking | unlock =>
    exact ⟨rfl, rfl, fun t => by simp, by simp⟩
  | schedule => exact ⟨rfl, rfl, fun t => by simp, by simp⟩
  | acquire | block => exact ⟨rfl, rfl, fun t => by simp, by simp⟩
  | dispatch => exact absurd rfl hdispatch
  | reap | sleep => exact absurd rfl hround

theorem sameReaper_of_step (hreach : taskSystem.Reachable s) (hstep : s.step act = some s')
    (hdispatch : act ≠ .dispatch) (hround : act ≠ .reaperRound) : SameReaper s s' := by
  obtain ⟨a, hareach, hsim⟩ := taskSystem_simulated hreach
  obtain ⟨a', hstep', hsim'⟩ := hsim.step (wellPlaced_of_reachable hareach) hstep
  obtain ⟨hcurrent, hreaper, hreaped, hrunning⟩ := hstep'.sameReaper hdispatch hround
  refine ⟨?_, ?_, ?_, ?_⟩
  · rw [hsim.1.current, hsim'.1.current, hcurrent]
  · rw [hsim.1.reaper, hsim'.1.reaper, hreaper]
  · unfold Sys.Reaped
    rw [hsim.2, hsim'.2]
    exact exists_congr hreaped
  · rw [hsim.2, hsim'.2]
    exact hrunning

/-- The reaper runs before the step if it does behind it. -/
theorem SameReaper.runs (h : SameReaper s s') (hruns : s'.ReaperRuns) : s.ReaperRuns := by
  refine ⟨h.running hruns.1, ?_⟩
  rw [← h.current, ← h.reaper]
  exact hruns.2

/-- A reaper that stands in its loop can only be interrupted. -/
theorem step_of_reaper (hout : s.Outside) (hreaper : s.kernel.currentTask = s.kernel.reaperTask)
    (htimer : act ≠ .timer) (hround : act ≠ .reaperRound) : s.step act = none := by
  have hcall : ¬ s.MayCall := fun h => h.2 hreaper
  cases act with
  | createTask => simp [Sys.step, hout.1, hcall]
  | schedule => simp [Sys.step, hout.1]
  | dispatch => simp [Sys.step, hout.1]
  | timer => exact absurd rfl htimer
  | threadExit => simp [Sys.step, hcall]
  | mutexLock => simp [Sys.step, hcall]
  | resumeLock => simp [Sys.step, hout.1, hout.2]
  | mutexUnlock => simp [Sys.step, hcall]
  | reaperRound => exact absurd rfl hround

/-- The reaper in its loop: somebody has been freed, or there is somebody to free. -/
theorem removeDead_cases (hreach : taskSystem.Reachable s) (hout : s.Outside)
    (hreaper : s.kernel.currentTask = s.kernel.reaperTask) :
    (removeTaskFromDeadQueue s.kernel = (0, s.kernel) ∧ s.Reaped) ∨
      ∃ corpse kernel, corpse ≠ 0 ∧ removeTaskFromDeadQueue s.kernel = (corpse, kernel) := by
  obtain ⟨a, hareach, hsim⟩ := taskSystem_simulated hreach
  have hinv := wellPlaced_of_reachable hareach
  cases hdead : a.dead with
  | nil =>
    refine .inl ⟨hsim.1.removeDead_nil hdead, ?_⟩
    by_contra hnone
    refine Model.corpseWaits_of_reachable hareach ?_ ?_ hdead
    · intro t ht
      exact hnone ⟨t, by rwa [hsim.2]⟩
    · -- the reaper is running
      rw [hsim.1.current, hsim.1.reaper] at hreaper
      rw [← hreaper, hinv.coherent.current_running (hsim.outside_iff.mp hout).1]
      exact nofun
  | cons corpse rest =>
    obtain ⟨kernel, hremove, -⟩ := hsim.1.removeDead_cons hdead
    have hlist := hdead ▸ hinv.queued.dead
    exact .inr ⟨corpse, kernel, hinv.ne_zero hlist.head.1, hremove⟩

end

/-! ## The invariant -/

namespace FlagSys

/-- Once somebody has been freed, the reaper has interrupts off, or will have when it goes on. -/
structure Disabled (s : FlagSys) : Prop where
  started : s.sys.Reaped → s.started = true
  awake : s.sys.ReaperRuns → s.interrupted s.sys.kernel.reaperTask = false
  running : s.sys.Reaped → s.sys.ReaperRuns → s.flag = false
  waiting : s.sys.Reaped → ¬ s.sys.ReaperRuns →
    s.saved s.sys.kernel.reaperTask = false ∧ s.interrupted s.sys.kernel.reaperTask = false

/-- In front of its `yield` the reaper stands in the middle of a round in which it has found nobody
to free. -/
structure MidRound (s : FlagSys) (sys : Sys) : Prop where
  out : sys.Outside
  reaper : sys.kernel.currentTask = sys.kernel.reaperTask
  nobody : removeTaskFromDeadQueue sys.kernel = (0, sys.kernel)
  reaped : sys.Reaped
  eq : s.sys = { sys with kernel := setState sys.kernel sys.kernel.reaperTask .blocked }

/-- The state of the kernel is one of its runs, or the reaper is in front of its `yield`. -/
def Behind (s : FlagSys) : Prop :=
  ∃ sys, taskSystem.Reachable sys ∧
    ((s.atYield = false ∧ s.sys = sys) ∨ (s.atYield = true ∧ s.MidRound sys))

/-- The invariant. -/
structure Inv (s : FlagSys) : Prop where
  behind : s.Behind
  disabled : s.Disabled

variable {s s' : FlagSys} {sys sys' : Sys} {act : Action}

/-- At the top of the loop the state is one of the kernel. -/
theorem Behind.of_top (h : s.Behind) (htop : s.atYield = false) : taskSystem.Reachable s.sys := by
  obtain ⟨sys, hreach, ⟨-, rfl⟩ | ⟨hyield, -⟩⟩ := h
  · exact hreach
  · rw [htop] at hyield
    cases hyield

/-- At the `yield` it is one in the middle of a round. -/
theorem Behind.of_atYield (h : s.Behind) (hyield : s.atYield = true) :
    ∃ sys, taskSystem.Reachable sys ∧ s.MidRound sys := by
  obtain ⟨sys, hreach, ⟨htop, -⟩ | ⟨-, hmid⟩⟩ := h
  · rw [hyield] at htop
    cases htop
  · exact ⟨sys, hreach, hmid⟩

/-- In the middle of a round the reaper is in no `mutex_lock`. -/
theorem MidRound.outside (h : s.MidRound sys) : s.sys.Outside := by
  rw [h.eq]
  exact h.out

theorem MidRound.current (h : s.MidRound sys) :
    s.sys.kernel.currentTask = s.sys.kernel.reaperTask := by
  rw [h.eq]
  exact h.reaper

theorem MidRound.runs (h : s.MidRound sys) : s.sys.ReaperRuns := ⟨h.outside.1, h.current⟩

theorem MidRound.isReaped (h : s.MidRound sys) : s.sys.Reaped := by
  rw [h.eq]
  exact h.reaped

/-- In front of its `yield` the reaper cannot be interrupted. -/
theorem Inv.flag_atYield (h : s.Inv) (hyield : s.atYield = true) : s.flag = false := by
  obtain ⟨sys, -, hmid⟩ := h.behind.of_atYield hyield
  exact h.disabled.running hmid.isReaped hmid.runs

/-- A step of another task that leaves the reaper's frame alone. -/
theorem Disabled.other (h : s.Disabled) (hsame : SameReaper s.sys s'.sys)
    (hstarted : s'.started = s.started)
    (hother : ¬ s.sys.ReaperRuns)
    (hsaved : s'.saved s.sys.kernel.reaperTask = s.saved s.sys.kernel.reaperTask)
    (hint : s'.interrupted s.sys.kernel.reaperTask = s.interrupted s.sys.kernel.reaperTask) :
    s'.Disabled := by
  have hother' : ¬ s'.sys.ReaperRuns := fun hruns => hother (hsame.runs hruns)
  constructor
  · intro hreaped
    rw [hstarted]
    exact h.started (hsame.reaped.mp hreaped)
  · exact fun hruns => absurd hruns hother'
  · exact fun _ hruns => absurd hruns hother'
  · intro hreaped _
    rw [hsame.reaper, hsaved, hint]
    exact h.waiting (hsame.reaped.mp hreaped) hother

/-- The reaper is a task, and not a new one. -/
theorem reaper_ne_fresh {s : Sys} (hreach : taskSystem.Reachable s) {task : Addr}
    (hfresh : task ∉ s.control.unreaped) : s.kernel.reaperTask ≠ task := by
  obtain ⟨a, hareach, hsim⟩ := taskSystem_simulated hreach
  rintro rfl
  rw [hsim.2, hsim.1.reaper] at hfresh
  exact hfresh (wellPlaced_of_reachable hareach).coherent.reaper_mem

/-- While the reaper has the CPU, only the timer can take it away. -/
theorem not_reaperRuns {s s' : Sys} (hreach : taskSystem.Reachable s) (hstep : s.step act = some s')
    (htimer : act ≠ .timer) (hround : act ≠ .reaperRound) : ¬ s.ReaperRuns := by
  obtain ⟨a, hareach, hsim⟩ := taskSystem_simulated hreach
  rintro ⟨hphase, hreaper⟩
  have hpoint : s.control.point s.kernel.currentTask = .outside := by
    rw [hreaper, hsim.2, hsim.1.reaper]
    exact (wellPlaced_of_reachable hareach).coherent.reaper_outside
  rw [step_of_reaper ⟨hphase, hpoint⟩ hreaper htimer hround] at hstep
  cases hstep

/-- A dispatch is from the scheduler. -/
theorem dispatch_reaper {s s' : Sys} (hreach : taskSystem.Reachable s)
    (hstep : s.step .dispatch = some s') :
    s'.kernel.reaperTask = s.kernel.reaperTask ∧ (s'.Reaped ↔ s.Reaped) ∧
      s'.control.phase = .running := by
  obtain ⟨a, hareach, hsim⟩ := taskSystem_simulated hreach
  obtain ⟨a', hstep', hsim'⟩ := hsim.step (wellPlaced_of_reachable hareach) hstep
  unfold Sys.Reaped
  rw [hsim.1.reaper, hsim'.1.reaper, hsim.2, hsim'.2]
  cases hstep' with
  | dispatch => exact ⟨rfl, by simp, rfl⟩
  | acquire hlocks => cases hlocks
  | block hlocks => cases hlocks

/-- A state of the kernel is at the top of the loop. -/
theorem Behind.top (hreach : taskSystem.Reachable s.sys) (htop : s.atYield = false) : s.Behind :=
  ⟨s.sys, hreach, .inl ⟨htop, rfl⟩⟩

/-- `swtch` to the scheduler by another task. -/
theorem Disabled.leave (h : s.Disabled) (hsame : SameReaper s.sys sys)
    (hother : ¬ s.sys.ReaperRuns) (hphase : s.sys.control.phase = .running) (flag : Bool) :
    (s.leave flag sys).Disabled := by
  have hne : s.sys.kernel.reaperTask ≠ s.sys.kernel.currentTask :=
    fun heq => hother ⟨hphase, heq.symm⟩
  exact h.other hsame rfl hother (Function.update_of_ne hne ..) rfl

/-- While another task is in `mutex_lock`, the flag that is saved for the reaper stays off. -/
theorem Disabled.lock (h : s.Disabled) (hsame : SameReaper s.sys sys)
    (hother : ¬ s.sys.ReaperRuns) (hphase : s.sys.control.phase = .running) (flags : Bool) :
    (s.lock flags sys).Disabled := by
  have hlocal : FlagSys.Disabled
      { s with lockFlags := Function.update s.lockFlags s.sys.kernel.currentTask flags } :=
    ⟨h.started, h.awake, h.running, h.waiting⟩
  unfold FlagSys.lock
  dsimp only
  split
  · exact hlocal.other hsame rfl hother rfl rfl
  · exact hlocal.leave hsame hother hphase _

@[simp] theorem lock_sys (flags : Bool) : (s.lock flags sys).sys = sys := by
  unfold lock
  dsimp only
  split
  · rfl
  · rfl

@[simp] theorem lock_atYield (flags : Bool) : (s.lock flags sys).atYield = s.atYield := by
  unfold lock
  dsimp only
  split
  · rfl
  · rfl

/-- The reaper is at the top of its loop, or not running. -/
theorem Inv.task (h : s.Inv) (htop : s.atYield = false) (hstep : s.step (.task act) = some s') :
    s'.Inv := by
  have hreach := h.behind.of_top htop
  cases act with
  | createTask task base id =>
    obtain ⟨sys, hsys, rfl⟩ := Option.map_eq_some_iff.mp hstep
    have hother := not_reaperRuns hreach hsys nofun nofun
    have hfresh : task ∉ s.sys.control.unreaped :=
      (Option.ite_none_right_eq_some.mp hsys).1.2.2
    -- the new task's flags are set, and it is not the reaper
    have hne := reaper_ne_fresh hreach hfresh
    refine ⟨.top (.step hreach hsys) htop, ?_⟩
    exact h.disabled.other (sameReaper_of_step hreach hsys nofun nofun) rfl hother
      (Function.update_of_ne hne ..) (Function.update_of_ne hne ..)
  | schedule =>
    obtain ⟨sys, hsys, rfl⟩ := Option.map_eq_some_iff.mp hstep
    have hother := not_reaperRuns hreach hsys nofun nofun
    refine ⟨.top (.step hreach hsys) htop, ?_⟩
    exact h.disabled.other (sameReaper_of_step hreach hsys nofun nofun) rfl hother rfl rfl
  | dispatch =>
    obtain ⟨sys, hsys, rfl⟩ := Option.map_eq_some_iff.mp hstep
    have hother := not_reaperRuns hreach hsys nofun nofun
    -- the popped task is switched to with the flag that it has saved
    obtain ⟨hreaper, hreaped, hphase⟩ := dispatch_reaper hreach hsys
    refine ⟨.top (.step hreach hsys) htop, ?_⟩
    constructor
    · exact fun hnow => h.disabled.started (hreaped.mp hnow)
    · rintro ⟨-, hcurrent⟩
      change sys.kernel.currentTask = sys.kernel.reaperTask at hcurrent
      show Function.update s.interrupted sys.kernel.currentTask false sys.kernel.reaperTask = false
      rw [hcurrent, Function.update_self]
    · -- the reaper goes on with the flag it has saved
      rintro hnow ⟨-, hcurrent⟩
      change sys.kernel.currentTask = sys.kernel.reaperTask at hcurrent
      obtain ⟨hsaved, hint⟩ := h.disabled.waiting (hreaped.mp hnow) hother
      show (if s.interrupted sys.kernel.currentTask then true else s.saved sys.kernel.currentTask) =
        false
      rw [hcurrent, hreaper, hint, hsaved]
      rfl
    · intro hnow hnot
      obtain ⟨hsaved, hint⟩ := h.disabled.waiting (hreaped.mp hnow) hother
      have hne : sys.kernel.reaperTask ≠ sys.kernel.currentTask :=
        fun heq => hnot ⟨hphase, heq.symm⟩
      show s.saved sys.kernel.reaperTask = false ∧
        Function.update s.interrupted sys.kernel.currentTask false sys.kernel.reaperTask = false
      rw [Function.update_of_ne hne, hreaper]
      exact ⟨hsaved, hint⟩
  | timer =>
    -- the timer is taken only with the flag set
    obtain ⟨hflag, hstep⟩ := Option.ite_none_right_eq_some.mp hstep
    obtain ⟨sys, hsys, rfl⟩ := Option.map_eq_some_iff.mp hstep
    have hphase : s.sys.control.phase = .running := (Option.ite_none_right_eq_some.mp hsys).1.1
    have hsame := sameReaper_of_step hreach hsys nofun nofun
    refine ⟨.top (.step hreach hsys) htop, ?_⟩
    by_cases hruns : s.sys.ReaperRuns
    · -- with interrupts on, so nobody has been freed yet
      have hnone : ¬ s.sys.Reaped := by
        intro hnow
        rw [h.disabled.running hnow hruns] at hflag
        cases hflag
      have hnone' : ¬ sys.Reaped := fun hnow => hnone (hsame.reaped.mp hnow)
      have hgone : ¬ sys.ReaperRuns := by
        rintro ⟨hrunning, -⟩
        rw [← Option.some.inj (Option.ite_none_right_eq_some.mp hsys).2] at hrunning
        cases hrunning
      exact ⟨fun hnow => absurd hnow hnone', fun hnow => absurd hnow hgone,
        fun hnow => absurd hnow hnone', fun hnow => absurd hnow hnone'⟩
    · have hne : s.sys.kernel.reaperTask ≠ s.sys.kernel.currentTask :=
        fun heq => hruns ⟨hphase, heq.symm⟩
      exact h.disabled.other hsame rfl hruns (Function.update_of_ne hne ..)
        (Function.update_of_ne hne ..)
  | threadExit =>
    obtain ⟨sys, hsys, rfl⟩ := Option.map_eq_some_iff.mp hstep
    have hphase : s.sys.control.phase = .running := (Option.ite_none_right_eq_some.mp hsys).1.1.1
    refine ⟨.top (.step hreach hsys) htop, ?_⟩
    exact h.disabled.leave (sameReaper_of_step hreach hsys nofun nofun)
      (not_reaperRuns hreach hsys nofun nofun) hphase _
  | mutexLock lock =>
    obtain ⟨sys, hsys, rfl⟩ := Option.map_eq_some_iff.mp hstep
    have hphase : s.sys.control.phase = .running := (Option.ite_none_right_eq_some.mp hsys).1.1.1
    refine ⟨.top (by rw [lock_sys]; exact .step hreach hsys) (by rw [lock_atYield, htop]), ?_⟩
    exact h.disabled.lock (sameReaper_of_step hreach hsys nofun nofun)
      (not_reaperRuns hreach hsys nofun nofun) hphase _
  | resumeLock =>
    obtain ⟨sys, hsys, rfl⟩ := Option.map_eq_some_iff.mp hstep
    have hphase : s.sys.control.phase = .running := (Option.ite_none_right_eq_some.mp hsys).1
    refine ⟨.top (by rw [lock_sys]; exact .step hreach hsys) (by rw [lock_atYield, htop]), ?_⟩
    exact h.disabled.lock (sameReaper_of_step hreach hsys nofun nofun)
      (not_reaperRuns hreach hsys nofun nofun) hphase _
  | mutexUnlock lock =>
    obtain ⟨sys, hsys, rfl⟩ := Option.map_eq_some_iff.mp hstep
    refine ⟨.top (.step hreach hsys) htop, ?_⟩
    exact h.disabled.other (sameReaper_of_step hreach hsys nofun nofun) rfl
      (not_reaperRuns hreach hsys nofun nofun) rfl rfl
  | reaperRound => cases hstep

/-- In front of its `yield` the reaper has interrupts off, and nobody else has the CPU. -/
theorem Inv.not_task (h : s.Inv) (hyield : s.atYield = true) : s.step (.task act) = none := by
  obtain ⟨sys, -, hmid⟩ := h.behind.of_atYield hyield
  have hflag := h.flag_atYield hyield
  have hnone : act ≠ .timer → act ≠ .reaperRound → s.sys.step act = none :=
    step_of_reaper hmid.outside hmid.current
  cases act with
  | timer => simp [step, hflag]
  | reaperRound => rfl
  | createTask | schedule | dispatch | threadExit | mutexLock | resumeLock | mutexUnlock =>
    simp [step, hnone]

end FlagSys

/-! ## The reaper's own steps -/

section

variable {k kernel : Kernel} {corpse : Addr} {s s' : FlagSys}

theorem removeDead_reaper (h : removeTaskFromDeadQueue k = (corpse, kernel)) :
    kernel.reaperTask = k.reaperTask ∧ kernel.currentTask = k.currentTask := by
  obtain rfl : (removeTaskFromDeadQueue k).2 = kernel := by rw [h]
  exact ⟨rfl, rfl⟩

/-- A round that frees somebody. -/
theorem step_reaperRound_corpse {s : Sys} (hout : s.Outside)
    (hreaper : s.kernel.currentTask = s.kernel.reaperTask) (hne : corpse ≠ 0)
    (hremove : removeTaskFromDeadQueue s.kernel = (corpse, kernel)) :
    s.step .reaperRound = some {
      kernel := removeTaskFromCircularList kernel corpse
      control := s.control.reap corpse } := by
  have hround : reaperRound s.kernel = (corpse, removeTaskFromCircularList kernel corpse) := by
    unfold reaperRound
    rw [hremove]
    exact if_neg hne
  unfold Sys.step
  simp only [hround]
  rw [if_pos ⟨hout, hreaper⟩, if_neg hne]

/-- A round that finds nobody. -/
theorem step_reaperRound_nobody {s : Sys} (hout : s.Outside)
    (hreaper : s.kernel.currentTask = s.kernel.reaperTask)
    (hremove : removeTaskFromDeadQueue s.kernel = (0, s.kernel)) :
    s.step .reaperRound = some {
      kernel := yield (setState s.kernel s.kernel.reaperTask .blocked)
      control := (s.control.record .slept).toScheduler } := by
  have hround : reaperRound s.kernel =
      (0, yield (setState s.kernel s.kernel.reaperTask .blocked)) := by
    unfold reaperRound
    rw [hremove]
    rfl
  unfold Sys.step
  simp only [hround]
  rw [if_pos ⟨hout, hreaper⟩, if_pos trivial]

namespace FlagSys

/-- A round up to the free or up to the `yield`. -/
theorem Inv.reaperLoop (h : s.Inv) (hout : s.sys.Outside)
    (hreaper : s.sys.kernel.currentTask = s.sys.kernel.reaperTask) (hstarted : s.started = true)
    (htop : s.atYield = false) : s.reaperLoop.Inv := by
  have hreach := h.behind.of_top htop
  unfold FlagSys.reaperLoop
  -- no corpse: the flags as they were; a corpse: off until the next round
  rcases removeDead_cases hreach hout hreaper with ⟨hnobody, hreaped⟩ |
    ⟨corpse, kernel, hne, hremove⟩
  · rw [hnobody]
    dsimp only
    rw [if_pos rfl]
    refine ⟨⟨s.sys, hreach, .inr ⟨rfl, hout, hreaper, hnobody, hreaped, rfl⟩⟩, ?_⟩
    exact ⟨h.disabled.started, h.disabled.awake, h.disabled.running, h.disabled.waiting⟩
  · rw [hremove]
    dsimp only
    rw [if_neg hne]
    have hsame : (removeTaskFromCircularList kernel corpse).reaperTask = s.sys.kernel.reaperTask :=
      (SameRecords.removeTask ..).reaperTask.trans (removeDead_reaper hremove).1
    have hcurrent : (removeTaskFromCircularList kernel corpse).currentTask =
        s.sys.kernel.currentTask :=
      (removeTask_currentTask ..).trans (removeDead_reaper hremove).2
    refine ⟨.top (.step hreach (step_reaperRound_corpse hout hreaper hne hremove)) htop, ?_⟩
    constructor
    · exact fun _ => hstarted
    · intro _
      show s.interrupted (removeTaskFromCircularList kernel corpse).reaperTask = false
      rw [hsame]
      exact h.disabled.awake ⟨hout.1, hreaper⟩
    · -- the flags saved at the top are not restored
      intro _ _
      show reaperLoopFlag corpse s.flag = false
      unfold reaperLoopFlag
      exact if_neg hne
    · intro _ hnot
      refine absurd ⟨hout.1, ?_⟩ hnot
      show (removeTaskFromCircularList kernel corpse).currentTask =
        (removeTaskFromCircularList kernel corpse).reaperTask
      rw [hcurrent, hsame, hreaper]

/-- The `yield` itself saves the flag, which is off. -/
theorem Inv.reaperYield (h : s.Inv) (hyield : s.atYield = true) :
    Inv { s.leave s.flag {
      kernel := yield s.sys.kernel
      control := (s.sys.control.record .slept).toScheduler } with atYield := false } := by
  obtain ⟨sys, hreach, hmid⟩ := h.behind.of_atYield hyield
  have hflag := h.flag_atYield hyield
  have hkernel : s.sys.kernel = setState sys.kernel sys.kernel.reaperTask .blocked := by
    rw [hmid.eq]
  have hcontrol : s.sys.control = sys.control := by
    rw [hmid.eq]
  constructor
  · refine .top ?_ rfl
    show taskSystem.Reachable {
      kernel := yield s.sys.kernel, control := (s.sys.control.record .slept).toScheduler }
    rw [hkernel, hcontrol]
    exact .step hreach (step_reaperRound_nobody hmid.out hmid.reaper hmid.nobody)
  · have hgone : ∀ kernel, ¬ Sys.ReaperRuns
        { kernel, control := (s.sys.control.record .slept).toScheduler } :=
      fun _ hruns => nomatch hruns.1
    constructor
    · exact fun _ => h.disabled.started hmid.isReaped
    · exact fun hruns => absurd hruns (hgone _)
    · exact fun _ hruns => absurd hruns (hgone _)
    · intro _ _
      show Function.update s.saved s.sys.kernel.currentTask s.flag (yield s.sys.kernel).reaperTask =
        false ∧ s.interrupted (yield s.sys.kernel).reaperTask = false
      rw [(SameRecords.yield _).reaperTask, hmid.current, Function.update_self]
      exact ⟨hflag, h.disabled.awake hmid.runs⟩

theorem Inv.step {act : FlagAction} (h : s.Inv) (hstep : s.step act = some s') : s'.Inv := by
  cases act with
  | task act =>
    cases hyield : s.atYield with
    | false => exact h.task hyield hstep
    | true =>
      rw [h.not_task hyield] at hstep
      cases hstep
  | code flag =>
    obtain ⟨hcall, hs'⟩ := Option.ite_none_right_eq_some.mp hstep
    rw [← Option.some.inj hs']
    have hother : ¬ s.sys.ReaperRuns := fun hruns => hcall.2 hruns.2
    refine ⟨?_, h.disabled.started, h.disabled.awake, fun _ hruns => absurd hruns hother,
      h.disabled.waiting⟩
    obtain ⟨sys, hreach, hwhere⟩ := h.behind
    refine ⟨sys, hreach, hwhere.imp id fun hmid => ?_⟩
    exact absurd hmid.2.runs hother
  | sti =>
    obtain ⟨⟨-, -, hstarted⟩, hs'⟩ := Option.ite_none_right_eq_some.mp hstep
    rw [← Option.some.inj hs']
    -- nobody has been freed yet
    have hnone : ¬ s.sys.Reaped := by
      intro hnow
      rw [h.disabled.started hnow] at hstarted
      cases hstarted
    refine ⟨?_, fun _ => rfl, h.disabled.awake, fun hnow => absurd hnow hnone,
      h.disabled.waiting⟩
    obtain ⟨sys, hreach, hwhere⟩ := h.behind
    refine ⟨sys, hreach, hwhere.imp id fun hmid => ?_⟩
    exact absurd hmid.2.isReaped hnone
  | reaperLoop =>
    obtain ⟨⟨hout, hreaper, hstarted, htop⟩, hs'⟩ := Option.ite_none_right_eq_some.mp hstep
    rw [← Option.some.inj hs']
    exact h.reaperLoop hout hreaper hstarted htop
  | reaperYield =>
    obtain ⟨⟨-, -, hyield⟩, hs'⟩ := Option.ite_none_right_eq_some.mp hstep
    rw [← Option.some.inj hs']
    exact h.reaperYield hyield

theorem inv_of_reachable (h : flagSystem.Reachable s) : s.Inv := by
  refine h.invariant (P := Inv) ?_ ?_
  · rintro _ ⟨reaper, base, hne, rfl⟩
    have hnone : ¬ (Sys.init reaper base).Reaped := fun ⟨t, ht⟩ => nomatch ht
    have hgone : ¬ (Sys.init reaper base).ReaperRuns := fun hruns => nomatch hruns.1
    refine ⟨.top (.init ⟨reaper, base, hne, rfl⟩) rfl, ?_⟩
    exact ⟨fun hnow => absurd hnow hnone, fun hruns => absurd hruns hgone,
      fun hnow => absurd hnow hnone, fun hnow => absurd hnow hnone⟩
  · intro s act s' _ hinv hstep
    exact hinv.step hstep

end FlagSys

/-- Whenever the reaper gets to its `yield`, in any run, interrupts are off. -/
theorem reaper_yields_disabled (hreach : flagSystem.Reachable s) (hyield : s.atYield = true) :
    s.flag = false :=
  (FlagSys.inv_of_reachable hreach).flag_atYield hyield

end

/-- One task dies, the reaper frees it and finds nobody else: it is at its `yield`. -/
theorem run_to_yield : ∃ s, flagSystem.Reachable s ∧ s.atYield = true := by
  have hrun : ∃ s, TransitionSystem.runActions FlagSys.step
      [.task (.createTask 20 0 0), .task .schedule, .task .dispatch, .task .threadExit,
        .task .dispatch, .sti, .reaperLoop, .reaperLoop] (FlagSys.init 10 0) = some s ∧
      s.atYield = true := ⟨_, rfl, by decide⟩
  obtain ⟨s, hrun, hyield⟩ := hrun
  have hinit : flagSystem.Reachable (FlagSys.init 10 0) := .init ⟨10, 0, by decide, rfl⟩
  exact ⟨s, TransitionSystem.reachable_of_runActions hinit hrun, hyield⟩

/-- The reaper has entered its loop with interrupts on. -/
theorem reaper_yields_not_enabled : ¬ ∀ s, flagSystem.Reachable s → s.atYield = true →
    s.flag = true := by
  intro henabled
  obtain ⟨s, hreach, hyield⟩ := run_to_yield
  have hflag := (FlagSys.inv_of_reachable hreach).flag_atYield hyield
  rw [henabled s hreach hyield] at hflag
  cases hflag

/-- In the run above interrupts are off at the `yield`. -/
theorem reaper_yields_disabled_one : ∃ s, flagSystem.Reachable s ∧ s.atYield = true ∧
    s.flag = false := by
  obtain ⟨s, hreach, hyield⟩ := run_to_yield
  exact ⟨s, hreach, hyield, reaper_yields_disabled hreach hyield⟩

end Pelikan

end SystemsProjects

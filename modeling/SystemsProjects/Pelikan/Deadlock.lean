import Mathlib.Data.Finset.Max
import SystemsProjects.Pelikan.MutexSafety
import SystemsProjects.Pelikan.WakeUps

/-!
# When `schedule` finds nobody

`schedule` has interrupts off. If the ready queue is empty then, its loop goes round for ever.

- `schedule_hangs_iff`: this is the state of a kernel in which the reaper sleeps and everybody else
  waits for a mutex, held by a task that waits, too, or is gone.
- `ordered_hangs_iff`: when all tasks lock mutexes in one order and give them back before they exit,
  it happens only once there is nobody but the reaper.

What is known of an empty ready queue comes from `WellPlaced`: a task that is in no queue and
does not run is the sleeping reaper, and everybody else waits. For the order on the mutexes the
proof looks at the waiting task whose mutex ranks highest. Its owner is alive and waits as well,
for a mutex behind this one, against the choice (`Ranked.eq_reaper`).
-/

namespace SystemsProjects

namespace Pelikan

namespace Model

variable {a a' : Model} {act : Action} {t u m m' : Addr} {rank : Addr → Nat}

/-! ## Without a ready task -/

/-- Everybody has gone to sleep. -/
theorem WellPlaced.blocked_of_ready_nil (h : a.WellPlaced) (hb : a.Buries)
    (hphase : a.control.phase = .scheduling) (hready : a.ready = []) (ht : t ∈ a.control.unreaped) :
    a.state t = .blocked := by
  have hrun : ∀ u ∈ a.control.unreaped, a.state u ≠ .running := by
    intro u hu hstate
    have hrunning := ((h.coherent.running_iff u hu).mp hstate).1
    rw [hphase] at hrunning
    cases hrunning
  have hnotReady : ∀ u ∈ a.control.unreaped, a.state u ≠ .ready := by
    intro u hu hstate
    have hmem := (h.queued.ready.mem_iff u).mpr ⟨hu, hstate⟩
    rw [hready] at hmem
    cases hmem
  cases hstate : a.state t with
  | blocked => rfl
  | running => exact absurd hstate (hrun t ht)
  | ready => exact absurd hstate (hnotReady t ht)
  | dead =>
    -- the reaper would be awake
    have hmem := (h.queued.dead.mem_iff t).mpr ⟨ht, hstate⟩
    have hawake := hb.awake (List.ne_nil_of_mem hmem)
    have hreaper := h.coherent.reaper_mem
    cases hr : a.state a.reaper with
    | blocked => exact absurd hr hawake
    | dead => exact absurd hr h.coherent.reaper_alive
    | running => exact absurd hr (hrun _ hreaper)
    | ready => exact absurd hr (hnotReady _ hreaper)

/-- Whoever is not the reaper waits for a mutex that has an owner. -/
theorem WellPlaced.owner_of_ready_nil (h : a.WellPlaced) (hb : a.Buries) (hw : a.Watched)
    (hphase : a.control.phase = .scheduling) (hready : a.ready = []) (ht : t ∈ a.control.unreaped)
    (hne : t ≠ a.reaper) : ∃ m u, a.Waits m t ∧ a.owner m = some u := by
  have hall := fun u hu => h.blocked_of_ready_nil (t := u) hb hphase hready hu
  obtain ⟨m, hpoint⟩ := h.coherent.blocked_inLock t ht (hall t ht) hne
  have hwaits : a.Waits m t := ⟨ht, hall t ht, hne, hpoint⟩
  cases howner : a.owner m with
  | some u => exact ⟨m, u, hwaits, howner⟩
  | none =>
    have hmem := ((h.queued.wait m).mem_iff t).mpr hwaits
    obtain ⟨u, hu, -, hawake⟩ := hw.awake m (List.ne_nil_of_mem hmem) howner
    rw [hall u hu] at hawake
    simp at hawake

/-- The reaper has no mutex. -/
theorem reaper_hasLock (h : system.Reachable a) : HasLock a.control.trace t m → t ≠ a.reaper := by
  refine h.invariant (P := fun a => ∀ t m, HasLock a.control.trace t m → t ≠ a.reaper) ?_ ?_ t m
  · rintro _ ⟨reaper, -, rfl⟩ t m hlock
    exact hlock.elim
  · intro a act a' hreach ih hstep t m hlock
    have hinv := wellPlaced_of_reachable hreach
    cases hstep with
    | schedule => exact ih t m hlock
    | acquire hlocks hfree =>
      rcases hlock with ⟨rfl, -⟩ | hlock
      · exact hlocks.current_ne_reaper hinv.coherent
      · exact ih t m hlock
    | unlock | unlockWaking => exact ih t m hlock.2
    | create | dispatch | timer | exitWaking | exit | block | reap | sleep => exact ih t m hlock

/-! ## An order on the mutexes -/

/-- What a task may do that keeps to the order: it locks a mutex behind those it has, unlocks one
that it has, and exits with none. -/
def Keeps (rank : Addr → Nat) (trace : List Event) (current : Addr) : Action → Prop
  | .mutexLock lock => ∀ m, HasLock trace current m → rank m < rank lock
  | .mutexUnlock lock => HasLock trace current lock
  | .threadExit => ∀ m, ¬ HasLock trace current m
  | _ => True

/-- Whoever has a mutex is alive, and waits for those behind it only. -/
structure Ranked (rank : Addr → Nat) (a : Model) : Prop where
  disciplined : Disciplined a.control.trace
  mem : ∀ m t, HasLock a.control.trace t m → t ∈ a.control.unreaped
  alive : ∀ m t, HasLock a.control.trace t m → a.state t ≠ .dead
  behind : ∀ m m' t, HasLock a.control.trace t m → a.control.point t = .inLock m' →
    rank m < rank m'

section

attribute [local grind =] Function.update_apply MayCall Outside

/-- A step that keeps the order of the ranks keeps the invariant. -/
theorem Ranked.step (h : a.Ranked rank) (hinv : a.WellPlaced) (he : a.Exclusive)
    (hkeeps : Keeps rank a.control.trace a.current act) (hstep : a.Step act a') :
    a'.Ranked rank := by
  obtain ⟨hd, hmem, halive, hbehind⟩ := h
  have hcurrent := hinv.coherent.current_mem
  have hrun := hinv.coherent.current_running
  cases hstep with
  | schedule => exact ⟨hd, hmem, halive, hbehind⟩
  | create hcall hne hfresh =>
    exact ⟨hd, by grind [HasLock], by grind [HasLock], by grind [HasLock]⟩
  | dispatch hphase hready | timer hout | sleep hout heq hdead =>
    exact ⟨hd, hmem, by grind [HasLock], hbehind⟩
  | exitWaking hcall hasleep | exit hcall hawake =>
    -- a thread that exits holds no lock
    have hnone : ∀ m, ¬ HasLock a.control.trace a.current m := hkeeps
    exact ⟨hd, hmem, by grind [HasLock], hbehind⟩
  | acquire hlocks hfree =>
    have hphase := hlocks.phase_running
    exact ⟨hd, by grind [HasLock], by grind [HasLock], by grind [HasLock]⟩
  | @block _ lock _ hlocks howner =>
    -- the lock that is waited for ranks above all that are held
    have hlock : ∀ m, HasLock a.control.trace a.current m → rank m < rank lock := by
      cases hlocks with
      | call hcall => exact hkeeps
      | resume hphase hpoint => exact fun m hm => hbehind m lock _ hm hpoint
    exact ⟨hd, hmem, by grind [HasLock], by grind [HasLock]⟩
  | @unlockWaking lock task rest hcall hwait =>
    -- only the owner unlocks, and it was the last to lock
    have hlast := he.last lock a.current ((he.owner_iff lock a.current).mpr hkeeps)
    exact ⟨⟨hlast, hd⟩, by grind [HasLock], by grind [HasLock], by grind [HasLock]⟩
  | @unlock lock hcall hwait =>
    have hlast := he.last lock a.current ((he.owner_iff lock a.current).mpr hkeeps)
    exact ⟨⟨hlast, hd⟩, by grind [HasLock], by grind [HasLock], by grind [HasLock]⟩
  | reap hout heq hdead =>
    obtain ⟨-, hcorpse⟩ := (hdead ▸ hinv.queued.dead).head
    exact ⟨hd, by grind [HasLock], by grind [HasLock], by grind [HasLock]⟩

end

/-- The rank of the mutex that the task waits for. -/
def waitRank (rank : Addr → Nat) (a : Model) (t : Addr) : Nat :=
  match a.control.point t with
  | .outside => 0
  | .inLock m => rank m

theorem Waits.waitRank (h : a.Waits m t) : a.waitRank rank t = rank m := by
  simp [Model.waitRank, h.2.2.2]

/-- Nobody but the reaper is left: of those that wait, one waits for the mutex of the highest rank,
and its owner does not wait for one behind that. -/
theorem Ranked.eq_reaper (h : a.Ranked rank) (hreach : system.Reachable a)
    (hphase : a.control.phase = .scheduling) (hready : a.ready = []) (ht : t ∈ a.control.unreaped) :
    t = a.reaper := by
  have hinv := wellPlaced_of_reachable hreach
  have hexclusive := exclusive_of_reachable hreach h.disciplined
  have howner := fun u hu hne => hinv.owner_of_ready_nil (t := u) (buries_of_reachable hreach)
    (watched_of_reachable hreach) hphase hready hu hne
  by_contra hne
  obtain ⟨u, hu, hmax⟩ := Finset.exists_max_image (a.control.unreaped.erase a.reaper)
    (a.waitRank rank) ⟨t, Finset.mem_erase.mpr ⟨hne, ht⟩⟩
  obtain ⟨hu', hmem⟩ := Finset.mem_erase.mp hu
  obtain ⟨m, v, hwaits, hv⟩ := howner u hmem hu'
  have hhas := (hexclusive.owner_iff m v).mp hv
  have hv' := reaper_hasLock hreach hhas
  obtain ⟨m', -, hwaits', -⟩ := howner v (h.mem m v hhas) hv'
  have hlt := h.behind m m' v hhas hwaits'.2.2.2
  have hle := hmax v (Finset.mem_erase.mpr ⟨hv', h.mem m v hhas⟩)
  rw [hwaits.waitRank, hwaits'.waitRank] at hle
  omega

end Model

open Model

variable {s s' : Sys} {a : Model} {rank : Addr → Nat}

/-! ## The kernel -/

namespace Sys

/-- The task sleeps in the loop of `mutex_lock`. -/
def Awaits (s : Sys) (t m : Addr) : Prop :=
  s.kernel.state t = .blocked ∧ s.control.point t = .inLock m

/-- The reaper sleeps, and everybody else waits for a mutex; its holder waits, too, or was
reaped. -/
structure Deadlocked (s : Sys) : Prop where
  phase : s.control.phase = .scheduling
  reaper : s.kernel.state s.kernel.reaperTask = .blocked
  awaits : ∀ t ∈ s.control.unreaped, t ≠ s.kernel.reaperTask →
    ∃ m holder, s.Awaits t m ∧ HasLock s.control.trace holder m ∧
      (holder ∈ s.control.unreaped → ∃ m', s.Awaits holder m')

end Sys

/-- The kernel can go on unless `schedule` finds nobody. -/
theorem Simulates.stuck_iff (h : Simulates s a) (hinv : a.WellPlaced) :
    (∀ act, s.step act = none) ↔ s.control.phase = .scheduling ∧ a.ready = [] := by
  constructor
  · intro hnone
    cases hphase : s.control.phase with
    | boot => simpa [Sys.step, hphase] using hnone .schedule
    | scheduling =>
      refine ⟨rfl, ?_⟩
      by_contra hne
      obtain ⟨t, rest, hready⟩ := List.exists_cons_of_ne_nil hne
      have hzero := hinv.ne_zero (hready ▸ hinv.queued.ready).head.1
      obtain ⟨k', hdispatch, -⟩ := h.1.dispatch hready hzero
      simpa [Sys.step, hphase, hdispatch] using hnone .dispatch
    | running =>
      cases hpoint : s.control.point s.kernel.currentTask with
      | outside => simpa [Sys.step, Sys.Outside, hphase, hpoint] using hnone .timer
      | inLock m => simpa [Sys.step, hphase, hpoint] using hnone .resumeLock
  · rintro ⟨hphase, hready⟩ act
    have hdispatch := h.1.dispatch_nil hready
    cases act <;> simp [Sys.step, Sys.MayCall, Sys.Outside, hphase, hdispatch]

/-- As long as only the task that has a mutex unlocks it: the kernel hangs, with `schedule` going
round for ever, exactly in the states of deadlock. -/
theorem schedule_hangs_iff (hreach : taskSystem.Reachable s)
    (hdisciplined : Disciplined s.control.trace) :
    (∀ act, s.step act = none) ↔ s.Deadlocked := by
  obtain ⟨a, hareach, hsim⟩ := taskSystem_simulated hreach
  have hinv := wellPlaced_of_reachable hareach
  -- the abstract run has what the argument needs: corpses, waiters, owners
  have hburies := buries_of_reachable hareach
  have hwatched := watched_of_reachable hareach
  rw [hsim.2] at hdisciplined
  have hexclusive := exclusive_of_reachable hareach hdisciplined
  rw [hsim.stuck_iff hinv]
  constructor
  · rintro ⟨hphase, hready⟩
    rw [hsim.2] at hphase
    have howner := fun t ht hne =>
      hinv.owner_of_ready_nil (t := t) hburies hwatched hphase hready ht hne
    have hawaits : ∀ {t m}, a.Waits m t → s.Awaits t m := by
      intro t m hwaits
      refine ⟨?_, ?_⟩
      · rw [hsim.1.state, hwaits.2.1]
      · rw [hsim.2, hwaits.2.2.2]
    refine ⟨by rw [hsim.2, hphase], ?_, fun t ht hne => ?_⟩
    · rw [hsim.1.state, hsim.1.reaper]
      exact hinv.blocked_of_ready_nil hburies hphase hready hinv.coherent.reaper_mem
    · rw [hsim.2] at ht
      rw [hsim.1.reaper] at hne
      -- whoever waits is behind an owner, and that one waits as well
      obtain ⟨m, holder, hwaits, hholder⟩ := howner t ht hne
      have hhas := (hexclusive.owner_iff m holder).mp hholder
      refine ⟨m, holder, hawaits hwaits, by rwa [hsim.2], fun hmem => ?_⟩
      rw [hsim.2] at hmem
      obtain ⟨m', -, hwaits', -⟩ := howner holder hmem (reaper_hasLock hareach hhas)
      exact ⟨m', hawaits hwaits'⟩
  · rintro ⟨hphase, hreaper, hawaits⟩
    refine ⟨hphase, ?_⟩
    rw [List.eq_nil_iff_forall_not_mem]
    intro t ht
    -- a ready task would be neither the reaper nor waiting
    obtain ⟨hmem, hstate⟩ := (hinv.queued.ready.mem_iff t).mp ht
    rw [← hsim.1.state] at hstate
    rw [← hsim.2] at hmem
    by_cases heq : t = s.kernel.reaperTask
    · rw [heq, hreaper] at hstate
      cases hstate
    · obtain ⟨m, -, ⟨hblocked, -⟩, -⟩ := hawaits t hmem heq
      rw [hblocked] at hstate
      cases hstate

/-- 20 has the mutex 7 and waits for 8, 30 the other way round. -/
theorem schedule_hangs_crossed : ∃ s, taskSystem.Reachable s ∧ (∀ act, s.step act = none) ∧
    HasLock s.control.trace 20 7 ∧ s.Awaits 20 8 ∧
    HasLock s.control.trace 30 8 ∧ s.Awaits 30 7 := by
  have hrun : ∃ s, TransitionSystem.runActions Sys.step
      [.createTask 20 0 0, .createTask 30 0 1, .schedule, .dispatch, .mutexLock 7, .timer,
        .dispatch, .mutexLock 8, .mutexLock 7, .dispatch, .mutexLock 8] (Sys.init 10 0) = some s ∧
      s.control.trace = [.blocked 20 8, .dispatched 20, .blocked 30 7, .returned 30 8,
        .dispatched 30, .preempted 20, .returned 20 7, .dispatched 20, .created 30, .created 20] ∧
      s.control.unreaped = {10, 20, 30} ∧ s.kernel.reaperTask = 10 ∧
      s.kernel.state 10 = .blocked ∧ s.Awaits 20 8 ∧ s.Awaits 30 7 ∧
      s.control.phase = .scheduling :=
    ⟨_, rfl, by decide, by decide, by decide, by decide, ⟨by decide, by decide⟩,
      ⟨by decide, by decide⟩, by decide⟩
  obtain ⟨s, hrun, htrace, hunreaped, hreaper, hasleep, hwaits, hwaits', hphase⟩ := hrun
  have hinit : taskSystem.Reachable (Sys.init 10 0) := .init ⟨10, 0, by decide, rfl⟩
  have hreach := TransitionSystem.reachable_of_runActions hinit hrun
  have hlock : HasLock s.control.trace 20 7 := by simp [htrace, HasLock]
  have hlock' : HasLock s.control.trace 30 8 := by simp [htrace, HasLock]
  have hdisciplined : Disciplined s.control.trace := by simp [htrace, Disciplined]
  refine ⟨s, hreach, (schedule_hangs_iff hreach hdisciplined).mpr ⟨hphase, ?_, ?_⟩, hlock, hwaits,
    hlock', hwaits'⟩
  · rw [hreaper, hasleep]
  · intro t ht hne
    simp only [hunreaped, hreaper, Finset.mem_insert, Finset.mem_singleton] at ht hne
    rcases ht with rfl | rfl | rfl
    · exact absurd rfl hne
    · exact ⟨8, 30, hwaits, hlock', fun _ => ⟨7, hwaits'⟩⟩
    · exact ⟨7, 20, hwaits', hlock, fun _ => ⟨8, hwaits⟩⟩

/-- The runs in which the tasks keep to the order. -/
def orderedSystem (rank : Addr → Nat) : TransitionSystem Sys Action :=
  taskSystem.restrict fun s act => Keeps rank s.control.trace s.kernel.currentTask act

/-- The model, with what holds of it in these runs. -/
theorem ordered_simulated (h : (orderedSystem rank).Reachable s) :
    ∃ a, Model.system.Reachable a ∧ Simulates s a ∧ a.Ranked rank := by
  induction h with
  | init h =>
    obtain ⟨reaper, base, hne, rfl⟩ := h
    refine ⟨Model.init reaper, .init ⟨reaper, hne, rfl⟩, simulates_init reaper base, ?_⟩
    exact ⟨trivial, fun m t h => h.elim, fun m t h => h.elim, fun m m' t h => h.elim⟩
  | step _ hstep ih =>
    obtain ⟨a, hreach, hsim, hranked⟩ := ih
    obtain ⟨hkeeps, hstep⟩ := hstep
    have hinv := wellPlaced_of_reachable hreach
    obtain ⟨a', hstep', hsim'⟩ := hsim.step hinv hstep
    rw [hsim.2, hsim.1.current] at hkeeps
    exact ⟨a', .step hreach hstep', hsim', hranked.step hinv
      (exclusive_of_reachable hreach hranked.disciplined) hkeeps hstep'⟩

/-- Whatever the order is: when the tasks keep to it, there is no deadlock. The kernel hangs exactly
once every task has exited and was reaped, and the reaper sleeps. -/
theorem ordered_hangs_iff (h : (orderedSystem rank).Reachable s) :
    (∀ act, s.step act = none) ↔ s.control.phase = .scheduling ∧
      s.control.unreaped = {s.kernel.reaperTask} ∧
      s.kernel.state s.kernel.reaperTask = .blocked := by
  obtain ⟨a, hreach, hsim, hranked⟩ := ordered_simulated h
  have hinv := wellPlaced_of_reachable hreach
  rw [hsim.stuck_iff hinv, hsim.2, hsim.1.state, hsim.1.reaper]
  constructor
  · rintro ⟨hphase, hready⟩
    refine ⟨hphase, ?_, ?_⟩
    · rw [Finset.eq_singleton_iff_unique_mem]
      exact ⟨hinv.coherent.reaper_mem, fun t ht => hranked.eq_reaper hreach hphase hready ht⟩
    · exact hinv.blocked_of_ready_nil (buries_of_reachable hreach) hphase hready
        hinv.coherent.reaper_mem
  · rintro ⟨hphase, honly, hblocked⟩
    refine ⟨hphase, ?_⟩
    rw [List.eq_nil_iff_forall_not_mem]
    intro t ht
    obtain ⟨hmem, hstate⟩ := (hinv.queued.ready.mem_iff t).mp ht
    rw [honly, Finset.mem_singleton] at hmem
    rw [hmem, hblocked] at hstate
    cases hstate

/-- 20 has the mutexes 7 and 8 and was preempted, 30 waits for 7. -/
theorem ordered_hangs_nested : ∃ s, (orderedSystem id).Reachable s ∧
    HasLock s.control.trace 20 7 ∧ HasLock s.control.trace 20 8 ∧ s.Awaits 30 7 ∧
    ¬ ∀ act, s.step act = none := by
  have hinit : (orderedSystem id).Reachable (Sys.init 10 0) := .init ⟨10, 0, by decide, rfl⟩
  have hcreate := hinit.step (a := Action.createTask 20 0 0) ⟨True.intro, rfl⟩
  have hcreate' := hcreate.step (a := Action.createTask 30 0 1) ⟨True.intro, rfl⟩
  have hschedule := hcreate'.step (a := Action.schedule) ⟨True.intro, rfl⟩
  have hfirst := hschedule.step (a := Action.dispatch) ⟨True.intro, rfl⟩
  have hlock := hfirst.step (a := Action.mutexLock 7) ⟨fun m hm => hm.elim, rfl⟩
  have hpreempted := hlock.step (a := Action.timer) ⟨True.intro, rfl⟩
  have hsecond := hpreempted.step (a := Action.dispatch) ⟨True.intro, rfl⟩
  have hwait := hsecond.step (a := Action.mutexLock 7)
    ⟨fun m hm => hm.elim (fun h => absurd h.1 (by decide)) False.elim, rfl⟩
  have hagain := hwait.step (a := Action.dispatch) ⟨True.intro, rfl⟩
  have hbehind := hagain.step (a := Action.mutexLock 8)
    ⟨fun m hm => hm.elim (fun h => h.2 ▸ (by decide : 7 < 8)) False.elim, rfl⟩
  have hreach := hbehind.step (a := Action.timer) ⟨True.intro, rfl⟩
  refine ⟨_, hreach, .inr (.inl ⟨rfl, rfl⟩), .inl ⟨rfl, rfl⟩, ⟨rfl, rfl⟩, fun hstuck => ?_⟩
  -- 20 is not the reaper
  have honly := ((ordered_hangs_iff hreach).mp hstuck).2.1
  revert honly
  decide

end Pelikan

end SystemsProjects

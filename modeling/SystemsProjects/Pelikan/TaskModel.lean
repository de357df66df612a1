import SystemsProjects.Pelikan.TaskSystem

/-!
# Tasks and queues without pointers

What the scheduler is for: tasks in lists. A state keeps the three kinds of queue as
lists of tasks and the owner of each mutex, and `Model.Step` says what each action does
to them.

`WellPlaced` is the invariant: the queue a task is in, and that it is in a queue, can be
read off its state, its place in the code and nothing else. It is kept by every step
(`WellPlaced.step`).

The proof that a step keeps the invariant is cut by what is preserved, not by action: the states
and places first, then the queues, which are determined by them, then the dead. Inside each part
the actions are the cases. `Step` is deterministic (`Step.unique`), so that a run of the model
can be followed by the kernel.
-/

namespace SystemsProjects

namespace Pelikan

/-- The tasks, as lists. -/
structure Model where
  state : Addr → TaskState
  current : Addr
  reaper : Addr
  ready : List Addr
  dead : List Addr
  wait : Addr → List Addr
  owner : Addr → Option Addr
  control : Control

namespace Model

/-- The current task stands outside `mutex_lock`. -/
def Outside (a : Model) : Prop :=
  a.control.phase = .running ∧ a.control.point a.current = .outside

/-- The current task may make a call. -/
def MayCall (a : Model) : Prop := a.Outside ∧ a.current ≠ a.reaper

/-- The action goes through the loop of `mutex_lock`. -/
inductive Locks (a : Model) (lock : Addr) : Action → Prop where
  | call (h : a.MayCall) : Locks a lock (.mutexLock lock)
  | resume (hphase : a.control.phase = .running) (h : a.control.point a.current = .inLock lock) :
      Locks a lock .resumeLock

/-- What each action does. -/
inductive Step (a : Model) : Action → Model → Prop where
  | create {task : Addr} {base id : BitVec 32} (hcall : a.control.phase = .boot ∨ a.MayCall)
      (hne : task ≠ 0) (hfresh : task ∉ a.control.unreaped) :
      Step a (.createTask task base id) { a with
        state := Function.update a.state task .ready
        ready := a.ready ++ [task]
        control := a.control.create task }
  | schedule (hphase : a.control.phase = .boot) :
      Step a .schedule { a with control := a.control.toScheduler }
  | dispatch {task : Addr} {rest : List Addr} (hphase : a.control.phase = .scheduling)
      (hready : a.ready = task :: rest) :
      Step a .dispatch { a with
        state := Function.update a.state task .running
        current := task
        ready := rest
        control := a.control.dispatch task }
  | timer (hout : a.Outside) :
      Step a .timer { a with
        state := Function.update a.state a.current .ready
        ready := a.ready ++ [a.current]
        control := (a.control.record (.preempted a.current)).toScheduler }
  | exitWaking (hcall : a.MayCall) (hreaper : a.state a.reaper = .blocked) :
      Step a .threadExit { a with
        state := Function.update (Function.update a.state a.current .dead) a.reaper .ready
        ready := a.ready ++ [a.reaper]
        dead := a.dead ++ [a.current]
        control := (a.control.record (.exited a.current)).toScheduler }
  | exit (hcall : a.MayCall) (hreaper : a.state a.reaper ≠ .blocked) :
      Step a .threadExit { a with
        state := Function.update a.state a.current .dead
        dead := a.dead ++ [a.current]
        control := (a.control.record (.exited a.current)).toScheduler }
  | acquire {act : Action} {lock : Addr} (hlocks : a.Locks lock act)
      (hfree : a.owner lock = none) :
      Step a act { a with
        owner := Function.update a.owner lock (some a.current)
        control := a.control.acquire a.current lock }
  | block {act : Action} {lock t : Addr} (hlocks : a.Locks lock act)
      (howner : a.owner lock = some t) :
      Step a act { a with
        state := Function.update a.state a.current .blocked
        wait := Function.update a.wait lock (a.wait lock ++ [a.current])
        control := a.control.block a.current lock }
  | unlockWaking {lock task : Addr} {rest : List Addr} (hcall : a.MayCall)
      (hwait : a.wait lock = task :: rest) :
      Step a (.mutexUnlock lock) { a with
        state := Function.update a.state task .ready
        ready := a.ready ++ [task]
        wait := Function.update a.wait lock rest
        owner := Function.update a.owner lock none
        control := a.control.record (.unlocked a.current lock task) }
  | unlock {lock : Addr} (hcall : a.MayCall) (hwait : a.wait lock = []) :
      Step a (.mutexUnlock lock) { a with
        owner := Function.update a.owner lock none
        control := a.control.record (.unlocked a.current lock 0) }
  | reap {corpse : Addr} {rest : List Addr} (hout : a.Outside) (hreaper : a.current = a.reaper)
      (hdead : a.dead = corpse :: rest) :
      Step a .reaperRound { a with dead := rest, control := a.control.reap corpse }
  | sleep (hout : a.Outside) (hreaper : a.current = a.reaper) (hdead : a.dead = []) :
      Step a .reaperRound { a with
        state := Function.update a.state a.reaper .blocked
        control := (a.control.record .slept).toScheduler }

/-- The model behind `spawn_reaper`. -/
def init (reaper : Addr) : Model where
  state _ := .blocked
  current := 0
  reaper := reaper
  ready := []
  dead := []
  wait _ := []
  owner _ := none
  control := { phase := .boot, point := fun _ => .outside, unreaped := {reaper}, trace := [] }

/-- The runs of the model. -/
def system : TransitionSystem Model Action where
  Initial a := ∃ reaper, reaper ≠ 0 ∧ a = init reaper
  Step := Step

/-! ## The invariant -/

/-- What the states and the places of the tasks say about each other. -/
structure Coherent (a : Model) : Prop where
  running_iff : ∀ t ∈ a.control.unreaped,
    a.state t = .running ↔ a.control.phase = .running ∧ t = a.current
  current_mem : a.control.phase = .running → a.current ∈ a.control.unreaped
  blocked_inLock : ∀ t ∈ a.control.unreaped, a.state t = .blocked → t ≠ a.reaper →
    ∃ m, a.control.point t = .inLock m
  reaper_mem : a.reaper ∈ a.control.unreaped
  reaper_alive : a.state a.reaper ≠ .dead
  reaper_outside : a.control.point a.reaper = .outside
  zero_notMem : 0 ∉ a.control.unreaped

/-- The task waits for the mutex. -/
def Waits (a : Model) (m t : Addr) : Prop :=
  t ∈ a.control.unreaped ∧ a.state t = .blocked ∧ t ≠ a.reaper ∧ a.control.point t = .inLock m

/-- The state of a task and its place in the code determine its queue. -/
structure Queued (a : Model) : Prop where
  ready : Lists (fun t => t ∈ a.control.unreaped ∧ a.state t = .ready) a.ready
  dead : Lists (fun t => t ∈ a.control.unreaped ∧ a.state t = .dead) a.dead
  wait : ∀ m, Lists (a.Waits m) (a.wait m)

/-- Tasks stay dead. -/
structure History (a : Model) : Prop where
  died : ∀ t ∈ a.control.unreaped, Died a.control.trace t → a.state t = .dead
  dispatched : ∀ t trace, .dispatched t :: trace <:+ a.control.trace → ¬ Died trace t

/-- The invariant. -/
structure WellPlaced (a : Model) : Prop where
  coherent : a.Coherent
  queued : a.Queued
  history : a.History

theorem wellPlaced_init {reaper : Addr} (h : reaper ≠ 0) : (init reaper).WellPlaced where
  coherent := by
    constructor <;> simp [init, h.symm]
  queued := {
    ready := ⟨List.nodup_nil, fun t => by simp [init]⟩
    dead := ⟨List.nodup_nil, fun t => by simp [init]⟩
    wait m := ⟨List.nodup_nil, fun t => by simp [init, Waits]⟩ }
  history := {
    died t _ hdied := hdied.elim
    dispatched t trace hsuffix := by simp [init] at hsuffix }

variable {a a' : Model} {act : Action}

/-- The current task has the CPU and no other state. -/
theorem Coherent.current_running (h : a.Coherent) (hphase : a.control.phase = .running) :
    a.state a.current = .running :=
  (h.running_iff _ (h.current_mem hphase)).mpr ⟨hphase, rfl⟩

theorem Locks.phase_running {lock : Addr} (h : a.Locks lock act) : a.control.phase = .running := by
  cases h with
  | call h => exact h.1.1
  | resume hphase _ => exact hphase

theorem Locks.point {lock : Addr} (h : a.Locks lock act) :
    a.control.point a.current = .outside ∨ a.control.point a.current = .inLock lock := by
  cases h with
  | call h => exact .inl h.1.2
  | resume _ hpoint => exact .inr hpoint

/-- The reaper takes no lock. -/
theorem Locks.current_ne_reaper {lock : Addr} (h : a.Locks lock act) (hc : a.Coherent) :
    a.current ≠ a.reaper := by
  cases h with
  | call h => exact h.2
  | resume _ hpoint =>
    intro heq
    rw [heq, hc.reaper_outside] at hpoint
    cases hpoint

/-! ### States and places -/

section

attribute [local grind =] Function.update_apply MayCall Outside

theorem WellPlaced.coherent_step (h : a.WellPlaced) (hstep : a.Step act a') : a'.Coherent := by
  obtain ⟨hc, hq, -⟩ := h
  have hrun := hc.running_iff
  have hblocked := hc.blocked_inLock
  have hreaper := hc.reaper_mem
  have halive := hc.reaper_alive
  have houtside := hc.reaper_outside
  cases hstep with
  | create hcall hne hfresh =>
    have hcurrent := hc.current_mem
    have hzero := hc.zero_notMem
    constructor <;> grind
  | schedule hphase =>
    exact { hc with
      running_iff := by grind
      current_mem := nofun }
  | dispatch hphase hready =>
    -- the task at the head is an unreaped one that is ready
    obtain ⟨htask, hstate⟩ := (hready ▸ hq.ready).head
    exact { hc with
      running_iff := by grind
      current_mem := fun _ => htask
      blocked_inLock := by grind
      reaper_alive := by grind }
  | timer hout | exitWaking hcall hasleep | exit hcall hawake | sleep hout heq hdead =>
    exact { hc with
      running_iff := by grind
      current_mem := nofun
      blocked_inLock := by grind
      reaper_alive := by grind }
  | acquire hlocks hfree =>
    have hphase := hlocks.phase_running
    have hne := hlocks.current_ne_reaper hc
    have hcurrent := hc.current_running hphase
    exact { hc with
      blocked_inLock := by grind
      reaper_outside := by grind }
  | @block _ lock _ hlocks howner =>
    have hphase := hlocks.phase_running
    have hne := hlocks.current_ne_reaper hc
    exact { hc with
      running_iff := by grind
      current_mem := nofun
      blocked_inLock := fun t ht hb hr => by
        by_cases heq : t = a.current
        · exact ⟨lock, by grind⟩
        · grind
      reaper_alive := by grind
      reaper_outside := by grind }
  | unlockWaking hcall hwait =>
    -- a waiting task is blocked, so it is not the current one
    obtain ⟨-, hstate, hne, -⟩ := (hwait ▸ hq.wait _).head
    exact { hc with
      running_iff := by grind
      blocked_inLock := by grind
      reaper_alive := by grind }
  | unlock hcall hwait => exact { hc with }
  | reap hout heq hdead =>
    have hcorpse := (hdead ▸ hq.dead).head
    have hcurrent := hc.current_mem
    exact { hc with
      running_iff := by grind
      current_mem := by grind
      blocked_inLock := by grind
      reaper_mem := by grind
      zero_notMem := fun hzero => hc.zero_notMem (Finset.mem_of_mem_erase hzero) }

/-! ### Queues -/

/-- The waiting tasks are those that waited before. -/
theorem Queued.wait_congr (h : a.Queued) (hiff : ∀ m t, a'.Waits m t ↔ a.Waits m t) (m : Addr) :
    Lists (a'.Waits m) (a.wait m) := (h.wait m).congr (hiff m)

/-- Every queue stays the list of those that belong there. -/
theorem WellPlaced.queued_step (h : a.WellPlaced) (hstep : a.Step act a') : a'.Queued := by
  obtain ⟨hc, hq, -⟩ := h
  have hcurrent := hc.current_running
  have hmem := hc.current_mem
  have hreaper := hc.reaper_mem
  have houtside := hc.reaper_outside
  -- each queue gets a task at its end, loses its head, or has the tasks it had
  cases hstep with
  | create hcall hne hfresh =>
    exact {
      ready := hq.ready.concat (fun hready => hfresh hready.1) (by grind)
      dead := hq.dead.congr (by grind)
      wait := hq.wait_congr (by grind [Waits]) }
  | schedule hphase => exact { hq with }
  | dispatch hphase hready =>
    obtain ⟨htask, hstate⟩ := (hready ▸ hq.ready).head
    exact {
      ready := (hready ▸ hq.ready).tail (by grind)
      dead := hq.dead.congr (by grind)
      wait := hq.wait_congr (by grind [Waits]) }
  | timer hout =>
    exact {
      ready := hq.ready.concat (by grind) (by grind)
      dead := hq.dead.congr (by grind)
      wait := hq.wait_congr (by grind [Waits]) }
  | exitWaking hcall hasleep =>
    exact {
      ready := hq.ready.concat (by grind) (by grind)
      dead := hq.dead.concat (by grind) (by grind)
      wait := hq.wait_congr (by grind [Waits]) }
  | exit hcall hawake =>
    exact {
      ready := hq.ready.congr (by grind)
      dead := hq.dead.concat (by grind) (by grind)
      wait := hq.wait_congr (by grind [Waits]) }
  | acquire hlocks hfree =>
    have hphase := hlocks.phase_running
    exact { hq with wait := hq.wait_congr (by grind [Waits]) }
  | @block _ lock _ hlocks howner =>
    have hphase := hlocks.phase_running
    have hne := hlocks.current_ne_reaper hc
    exact {
      ready := hq.ready.congr (by grind)
      dead := hq.dead.congr (by grind)
      wait := Lists.update ((hq.wait lock).concat (by grind [Waits]) (by grind [Waits]))
        fun m hm => (hq.wait m).congr (by grind [Waits]) }
  | @unlockWaking lock task rest hcall hwait =>
    obtain ⟨htask, hstate, hne, hpoint⟩ := (hwait ▸ hq.wait lock).head
    exact {
      ready := hq.ready.concat (by grind) (by grind)
      dead := hq.dead.congr (by grind)
      wait := Lists.update ((hwait ▸ hq.wait lock).tail (by grind [Waits]))
        fun m hm => (hq.wait m).congr (by grind [Waits]) }
  | unlock hcall hwait => exact { hq with }
  | reap hout heq hdead =>
    obtain ⟨hcorpse, hstate⟩ := (hdead ▸ hq.dead).head
    exact {
      ready := hq.ready.congr (by grind)
      dead := (hdead ▸ hq.dead).tail (by grind)
      wait := hq.wait_congr (by grind [Waits]) }
  | sleep hout heq hdead =>
    exact {
      ready := hq.ready.congr (by grind)
      dead := hq.dead.congr (by grind)
      wait := hq.wait_congr (by grind [Waits]) }

/-! ### The dead -/

/-- An event that kills nobody, of tasks that keep their states unless they are alive. -/
theorem History.keep (h : a.History) {e : Event} (htrace : a'.control.trace = e :: a.control.trace)
    (hdied : ∀ t ∈ a'.control.unreaped, Died (e :: a.control.trace) t →
      (t ∈ a.control.unreaped → Died a.control.trace t → a.state t = .dead) → a'.state t = .dead)
    (hdispatched : ∀ t, e = .dispatched t → ¬ Died a.control.trace t) : a'.History where
  died t ht hd := by
    rw [htrace] at hd
    exact hdied t ht hd fun ht' => h.died t ht'
  dispatched t trace hsuffix := by
    rw [htrace, List.suffix_cons_iff] at hsuffix
    rcases hsuffix with heq | hsuffix
    · obtain ⟨rfl, rfl⟩ := List.cons.inj heq
      exact hdispatched t rfl
    · exact h.dispatched t trace hsuffix

/-- Whoever has died stays dead and is not dispatched. -/
theorem WellPlaced.history_step (h : a.WellPlaced) (hstep : a.Step act a') : a'.History := by
  obtain ⟨hc, hq, hh⟩ := h
  have hcurrent := hc.current_running
  have hmem := hc.current_mem
  have halive := hc.reaper_alive
  cases hstep with
  | schedule hphase => exact { hh with }
  | dispatch hphase hready =>
    obtain ⟨htask, hstate⟩ := (hready ▸ hq.ready).head
    have hdied := hh.died _ htask
    refine hh.keep rfl (fun t ht hd hold => ?_) (fun t ht => ?_)
    · grind [Died]
    · cases ht
      intro hd
      rw [hdied hd] at hstate
      cases hstate
  | unlockWaking hcall hwait =>
    obtain ⟨htask, hstate, -⟩ := (hwait ▸ hq.wait _).head
    exact hh.keep rfl (by grind [Died]) nofun
  | _ => exact hh.keep rfl (by grind [Died, Locks.phase_running]) nofun

end

/-- Every step keeps the invariant. -/
theorem WellPlaced.step (h : a.WellPlaced) (hstep : a.Step act a') : a'.WellPlaced :=
  ⟨h.coherent_step hstep, h.queued_step hstep, h.history_step hstep⟩

/-! ### What is in no queue -/

theorem WellPlaced.ne_zero (h : a.WellPlaced) {t : Addr} (ht : t ∈ a.control.unreaped) : t ≠ 0 := by
  rintro rfl
  exact h.coherent.zero_notMem ht

/-- A task waits for one mutex at a time. -/
theorem WellPlaced.wait_apart (h : a.WellPlaced) (m m' t : Addr) (ht : t ∈ a.wait m)
    (ht' : t ∈ a.wait m') : m = m' := by
  obtain ⟨-, -, -, hpoint⟩ := ((h.queued.wait m).mem_iff t).mp ht
  obtain ⟨-, -, -, hpoint'⟩ := ((h.queued.wait m').mem_iff t).mp ht'
  exact Point.inLock.inj (hpoint.symm.trans hpoint')

/-- Whoever is unknown, or runs, is in no queue. -/
theorem WellPlaced.notMem (h : a.WellPlaced) {t : Addr}
    (ht : t ∉ a.control.unreaped ∨ a.state t = .running) :
    t ∉ a.ready ∧ t ∉ a.dead ∧ ∀ m, t ∉ a.wait m := by
  have hready := h.queued.ready.mem_iff t
  have hdead := h.queued.dead.mem_iff t
  have hwait := fun m => (h.queued.wait m).mem_iff t
  grind [Waits]

/-- The invariant holds in every state of every run. -/
theorem wellPlaced_of_reachable (h : system.Reachable a) : a.WellPlaced :=
  h.invariant (fun _ ⟨_, hne, heq⟩ => heq ▸ wellPlaced_init hne) fun _ _ _ _ h hstep => h.step hstep

/-! ### What an action leads to -/

theorem Locks.unique {lock lock' : Addr} (h : a.Locks lock act) (h' : a.Locks lock' act) :
    lock = lock' := by
  cases h with
  | call h =>
    cases h'
    rfl
  | resume hphase hpoint =>
    cases h' with
    | resume hphase' hpoint' => exact Point.inLock.inj (hpoint.symm.trans hpoint')

/-- An action leads to one state. -/
theorem Step.unique {a₁ a₂ : Model} (h : a.Step act a₁) (h' : a.Step act a₂) : a₁ = a₂ := by
  cases h with
  | acquire hlocks hfree =>
    cases h' with
    | acquire hlocks' hfree' =>
      obtain rfl := hlocks.unique hlocks'
      rfl
    | block hlocks' howner' =>
      obtain rfl := hlocks.unique hlocks'
      rw [hfree] at howner'
      cases howner'
    | _ => cases hlocks
  | block hlocks howner =>
    cases h' with
    | acquire hlocks' hfree' =>
      obtain rfl := hlocks.unique hlocks'
      rw [hfree'] at howner
      cases howner
    | block hlocks' howner' =>
      obtain rfl := hlocks.unique hlocks'
      rfl
    | _ => cases hlocks
  | _ => cases h' <;> grind [cases Locks]

end Model

end Pelikan

end SystemsProjects

import SystemsProjects.Pelikan.TaskModel

/-!
# The kernel follows the model

`Represents k a`: the kernel's memory holds the state of the model, each list of it in
one of the queues. Each function of the scheduler does to the kernel what the model does
to its lists (`Represents.addReady`, `Represents.lock_wait` and so on), and so every step
of the kernel is a step of the model (`Simulates.step`, `taskSystem_simulated`). The kernel
makes every step of the model, too (`Simulates.follow`).

`Represents` is about pointers and lists, one equation for each queue. The lemma of each
function of the scheduler has a list in front and a list behind, and never looks at a pointer of
another queue. With these, the simulation is a walk through the actions (`Simulates.step`), and
the other direction only has to see that the kernel's step is possible where the model's is.
-/

namespace SystemsProjects

namespace Pelikan

open Model

/-- The mutex belongs to the owner, or to nobody. -/
def Mutex.OwnedBy (m : Mutex) : Option Addr → Prop
  | none => m.locked = 0 ∧ m.holder = 0
  | some t => m.locked ≠ 0 ∧ m.holder = t

/-- The kernel's memory holds the state of the model. -/
structure Represents (k : Kernel) (a : Model) : Prop where
  state : k.state = a.state
  current : k.currentTask = a.current
  reaper : k.reaperTask = a.reaper
  ready : k.queue.Holds k.readyNext a.ready
  dead : k.deadQ.Holds k.deadNext a.dead
  wait : ∀ m, (k.mutexes m).queue.Holds k.mutexWaitNext (a.wait m)
  owner : ∀ m, (k.mutexes m).OwnedBy (a.owner m)

namespace Represents

variable {k : Kernel} {a : Model} {t lock : Addr}

theorem setState (h : Represents k a) (t : Addr) (s : TaskState) :
    Represents (Pelikan.setState k t s) { a with state := Function.update a.state t s } :=
  { h with
    state := by
      show Function.update k.state t s = Function.update a.state t s
      rw [h.state] }

/-- The model's control part is not in the kernel. -/
theorem control (h : Represents k a) (c : Control) : Represents k { a with control := c } :=
  { h with }

/-! ## Queues -/

theorem addReady (h : Represents k a) (ht : t ∉ a.ready) (hne : t ≠ 0) :
    Represents (addTaskToReadyQueue k t) { a with ready := a.ready ++ [t] } :=
  { h with ready := h.ready.add ht hne }

theorem addDead (h : Represents k a) (ht : t ∉ a.dead) (hne : t ≠ 0) :
    Represents (addTaskToDeadQueue k t) { a with dead := a.dead ++ [t] } :=
  { h with dead := h.dead.add ht hne }

theorem removeReady_nil (h : Represents k a) (hready : a.ready = []) :
    removeTaskFromReadyQueue k = (0, k) := by
  have hnil := (hready ▸ h.ready).remove_nil
  unfold removeTaskFromReadyQueue
  rw [hnil]

theorem removeReady_cons {rest : List Addr} (h : Represents k a) (hready : a.ready = t :: rest) :
    ∃ k', removeTaskFromReadyQueue k = (t, k') ∧ Represents k' { a with ready := rest } := by
  obtain ⟨q, hremove, hq⟩ := (hready ▸ h.ready).remove_cons
  refine ⟨{ k with queue := q, readyNext := Function.update k.readyNext t 0 }, ?_,
    { h with ready := hq }⟩
  unfold removeTaskFromReadyQueue
  rw [hremove]

theorem removeDead_nil (h : Represents k a) (hdead : a.dead = []) :
    removeTaskFromDeadQueue k = (0, k) := by
  have hnil := (hdead ▸ h.dead).remove_nil
  unfold removeTaskFromDeadQueue
  rw [hnil]

theorem removeDead_cons {rest : List Addr} (h : Represents k a) (hdead : a.dead = t :: rest) :
    ∃ k', removeTaskFromDeadQueue k = (t, k') ∧ Represents k' { a with dead := rest } := by
  obtain ⟨q, hremove, hq⟩ := (hdead ▸ h.dead).remove_cons
  refine ⟨{ k with deadQ := q, deadNext := Function.update k.deadNext t 0 }, ?_,
    { h with dead := hq }⟩
  unfold removeTaskFromDeadQueue
  rw [hremove]

/-- The queues of the mutexes share one link field, and stay apart. -/
theorem addWait (h : Represents k a) (hapart : ∀ m m' u, u ∈ a.wait m → u ∈ a.wait m' → m = m')
    (ht : ∀ m, t ∉ a.wait m) (hne : t ≠ 0) (lock : Addr) :
    Represents (addTaskToMutexQueue k t lock)
      { a with wait := Function.update a.wait lock (a.wait lock ++ [t]) } where
  state := h.state
  current := h.current
  reaper := h.reaper
  ready := h.ready
  dead := h.dead
  wait m := by
    show (Function.update k.mutexes lock _ m).queue.Holds _ (Function.update a.wait lock _ m)
    by_cases hm : m = lock
    · subst hm
      rw [Function.update_self, Function.update_self]
      exact (h.wait m).add (ht m) hne
    · rw [Function.update_of_ne hm, Function.update_of_ne hm]
      refine (h.wait m).congr fun u hu => (h.wait lock).add_frame ?_ ?_
      · exact fun hu' => hm (hapart m lock u hu hu')
      · rintro rfl
        exact ht m hu
  owner m := by
    show (Function.update k.mutexes lock _ m).OwnedBy (a.owner m)
    by_cases hm : m = lock
    · subst hm
      rw [Function.update_self]
      exact h.owner m
    · rw [Function.update_of_ne hm]
      exact h.owner m

/-- The first that waits for a mutex is taken. -/
theorem removeWait_cons {rest : List Addr} (h : Represents k a)
    (hapart : ∀ m m' u, u ∈ a.wait m → u ∈ a.wait m' → m = m') (hwait : a.wait lock = t :: rest) :
    ∃ k', removeTaskFromMutexQueue k lock = (t, k') ∧
      Represents k' { a with wait := Function.update a.wait lock rest } := by
  obtain ⟨q, hremove, hq⟩ := (hwait ▸ h.wait lock).remove_cons
  refine ⟨{ k with
    mutexes := Function.update k.mutexes lock { k.mutexes lock with queue := q }
    mutexWaitNext := Function.update k.mutexWaitNext t 0 }, ?_,
    { h with wait := fun m => ?_, owner := fun m => ?_ }⟩
  · unfold removeTaskFromMutexQueue
    rw [hremove]
  · show (Function.update k.mutexes lock _ m).queue.Holds _ (Function.update a.wait lock _ m)
    by_cases hm : m = lock
    · subst hm
      rw [Function.update_self, Function.update_self]
      exact hq
    · rw [Function.update_of_ne hm, Function.update_of_ne hm]
      refine (h.wait m).congr fun u hu => Function.update_of_ne ?_ ..
      rintro rfl
      exact hm (hapart m lock u hu (hwait ▸ List.mem_cons_self ..))
  · show (Function.update k.mutexes lock _ m).OwnedBy (a.owner m)
    by_cases hm : m = lock
    · subst hm
      rw [Function.update_self]
      exact h.owner m
    · rw [Function.update_of_ne hm]
      exact h.owner m

/-- The lock word of one mutex changes. -/
theorem setOwner (h : Represents k a) (lock : Addr) (mutex : Mutex) (o : Option Addr)
    (hqueue : mutex.queue = (k.mutexes lock).queue) (howner : mutex.OwnedBy o) :
    Represents { k with mutexes := Function.update k.mutexes lock mutex }
      { a with owner := Function.update a.owner lock o } where
  state := h.state
  current := h.current
  reaper := h.reaper
  ready := h.ready
  dead := h.dead
  wait m := by
    show (Function.update k.mutexes lock mutex m).queue.Holds _ (a.wait m)
    by_cases hm : m = lock
    · subst hm
      rw [Function.update_self, hqueue]
      exact h.wait m
    · rw [Function.update_of_ne hm]
      exact h.wait m
  owner m := by
    show (Function.update k.mutexes lock mutex m).OwnedBy (Function.update a.owner lock o m)
    by_cases hm : m = lock
    · subst hm
      rwa [Function.update_self, Function.update_self]
    · rw [Function.update_of_ne hm, Function.update_of_ne hm]
      exact h.owner m

/-! ## Tasks -/

/-- The circular list is not part of the model. -/
theorem insertTask (h : Represents k a) (t : Addr) : Represents (Pelikan.insertTask k t) a := by
  unfold Pelikan.insertTask
  split
  · exact { h with }
  · exact { h with }

/-- The circular list is not part of the model. -/
theorem removeTask (h : Represents k a) (t : Addr) :
    Represents (removeTaskFromCircularList k t) a := by
  unfold removeTaskFromCircularList
  split
  · exact { h with }
  · exact { h with }

/-- A `task_t` that is cleared is in no queue. -/
theorem clearTask (h : Represents k a) (hready : t ∉ a.ready) (hdead : t ∉ a.dead)
    (hwait : ∀ m, t ∉ a.wait m) :
    Represents (Pelikan.clearTask k t) { a with state := Function.update a.state t .blocked } := by
  have hframe :
      ∀ {f : Addr → Addr} {l : List Addr}, t ∉ l → ∀ u ∈ l, Function.update f t 0 u = f u := by
    intro f l ht u hu
    refine Function.update_of_ne ?_ ..
    rintro rfl
    exact ht hu
  exact { h with
    state := by
      show Function.update k.state t _ = Function.update a.state t _
      rw [h.state]
    ready := h.ready.congr (hframe hready)
    dead := h.dead.congr (hframe hdead)
    wait := fun m => (h.wait m).congr (hframe (hwait m)) }

/-- A new task is ready, at the end of the queue. -/
theorem createTask (h : Represents k a) (hready : t ∉ a.ready) (hdead : t ∉ a.dead)
    (hwait : ∀ m, t ∉ a.wait m) (hne : t ≠ 0) (base id : BitVec 32) :
    Represents (Pelikan.createTask k t base id 0)
      { a with state := Function.update a.state t .ready, ready := a.ready ++ [t] } := by
  have hclear := h.clearTask hready hdead hwait
  have hid : Represents { Pelikan.clearTask k t with
      stackBase := Function.update (Pelikan.clearTask k t).stackBase t (base + 4096)
      id := Function.update (Pelikan.clearTask k t).id t id }
      { a with state := Function.update a.state t .blocked } :=
    ⟨hclear.state, hclear.current, hclear.reaper, hclear.ready, hclear.dead, hclear.wait,
      hclear.owner⟩
  have hadd := (hid.setState t .ready).addReady hready hne
  rw [Function.update_idem] at hadd
  exact { hadd.insertTask t with }

/-! ## The scheduler -/

theorem dispatch {rest : List Addr} (h : Represents k a)
    (hready : a.ready = t :: rest) (hne : t ≠ 0) :
    ∃ k', scheduleDispatch k = some k' ∧ k'.currentTask = t ∧
      Represents k' { a with
        state := Function.update a.state t .running, current := t, ready := rest } := by
  obtain ⟨k', hremove, hk'⟩ := h.removeReady_cons hready
  refine ⟨{ Pelikan.setState k' t .running with currentTask := t }, ?_, rfl,
    { hk'.setState t .running with current := rfl }⟩
  unfold scheduleDispatch
  rw [hremove]
  exact if_neg hne

/-- Nobody is dispatched when nobody is ready. -/
theorem dispatch_nil (h : Represents k a) (hready : a.ready = []) : scheduleDispatch k = none := by
  unfold scheduleDispatch
  rw [h.removeReady_nil hready]
  rfl

/-- A task that runs gives the CPU back and stays ready. -/
theorem yield_running (h : Represents k a) (hrun : a.state a.current = .running)
    (hnot : a.current ∉ a.ready) (hne : a.current ≠ 0) :
    Represents (yield k) { a with
      state := Function.update a.state a.current .ready
      ready := a.ready ++ [a.current] } := by
  have hstate : k.state k.currentTask = .running := by rw [h.state, h.current, hrun]
  unfold yield scheduleResume
  rw [if_pos hstate, h.current]
  exact (h.setState a.current .ready).addReady hnot hne

/-- A task that has blocked itself gives the CPU back. -/
theorem yield_blocked (h : Represents k a) (hblocked : a.state a.current = .blocked) :
    yield k = k := by
  have hstate : k.state k.currentTask = .blocked := by rw [h.state, h.current, hblocked]
  unfold yield scheduleResume
  rw [hstate]
  rfl

/-- What `schedule` does with a dead task, up to waking the reaper. -/
theorem yield_dead (h : Represents k a) (hdead : a.state a.current = .dead)
    (hnot : a.current ∉ a.dead) (hne : a.current ≠ 0) :
    ∃ k', Represents k' { a with dead := a.dead ++ [a.current] } ∧
      yield k = if a.state a.reaper = .blocked
        then addTaskToReadyQueue (Pelikan.setState k' a.reaper .ready) a.reaper else k' := by
  have hstate : k.state k.currentTask = .dead := by rw [h.state, h.current, hdead]
  have hadd := h.addDead hnot hne
  refine ⟨addTaskToDeadQueue k a.current, hadd, ?_⟩
  unfold yield scheduleResume
  rw [if_neg (by rw [hstate]; exact nofun), if_pos hstate, h.current]
  show (if (addTaskToDeadQueue k a.current).state (addTaskToDeadQueue k a.current).reaperTask
    = .blocked then _ else _) = _
  rw [hadd.state, hadd.reaper]

theorem exit (h : Represents k a) (hnot : a.current ∉ a.dead) (hne : a.current ≠ 0)
    (hother : a.current ≠ a.reaper) (hawake : a.state a.reaper ≠ .blocked) :
    Represents (threadExit k) { a with
      state := Function.update a.state a.current .dead
      dead := a.dead ++ [a.current] } := by
  obtain ⟨k', hk', hyield⟩ :=
    (h.setState a.current .dead).yield_dead (Function.update_self ..) hnot hne
  unfold threadExit
  rw [h.current, hyield, if_neg]
  · exact hk'
  · show Function.update a.state a.current .dead a.reaper ≠ .blocked
    rwa [Function.update_of_ne hother.symm]

theorem exitWaking (h : Represents k a) (hnot : a.current ∉ a.dead) (hne : a.current ≠ 0)
    (hother : a.current ≠ a.reaper) (hasleep : a.state a.reaper = .blocked)
    (hreaper : a.reaper ∉ a.ready) (hzero : a.reaper ≠ 0) :
    Represents (threadExit k) { a with
      state := Function.update (Function.update a.state a.current .dead) a.reaper .ready
      ready := a.ready ++ [a.reaper]
      dead := a.dead ++ [a.current] } := by
  obtain ⟨k', hk', hyield⟩ :=
    (h.setState a.current .dead).yield_dead (Function.update_self ..) hnot hne
  unfold threadExit
  rw [h.current, hyield, if_pos]
  · exact (hk'.setState a.reaper .ready).addReady hreaper hzero
  · show Function.update a.state a.current .dead a.reaper = .blocked
    rwa [Function.update_of_ne hother.symm]

/-! ## The reaper -/

theorem reap {rest : List Addr} (h : Represents k a) (hdead : a.dead = t :: rest) (hne : t ≠ 0) :
    ∃ k', reaperRound k = (t, k') ∧ Represents k' { a with dead := rest } := by
  obtain ⟨k', hremove, hk'⟩ := h.removeDead_cons hdead
  refine ⟨removeTaskFromCircularList k' t, ?_, hk'.removeTask t⟩
  unfold reaperRound
  rw [hremove]
  exact if_neg hne

theorem sleep (h : Represents k a) (hdead : a.dead = []) (hreaper : a.current = a.reaper) :
    ∃ k', reaperRound k = (0, k') ∧
      Represents k' { a with state := Function.update a.state a.reaper .blocked } := by
  have hsleep := h.setState a.reaper .blocked
  refine ⟨Pelikan.setState k a.reaper .blocked, ?_, hsleep⟩
  have hyield :
      yield (Pelikan.setState k a.reaper .blocked) = Pelikan.setState k a.reaper .blocked := by
    refine hsleep.yield_blocked ?_
    show Function.update a.state a.reaper .blocked a.current = .blocked
    rw [hreaper, Function.update_self]
  unfold reaperRound
  rw [h.removeDead_nil hdead]
  show (0, yield (Pelikan.setState k k.reaperTask .blocked)) = _
  rw [h.reaper, hyield]

/-! ## Mutexes -/

theorem lock_free (h : Represents k a) (hfree : a.owner lock = none) :
    ∃ k', mutexLock k lock = (true, k') ∧
      Represents k' { a with owner := Function.update a.owner lock (some a.current) } := by
  have howner := h.owner lock
  rw [hfree] at howner
  refine ⟨_, if_neg (not_not.mpr howner.1), h.setOwner lock _ _ rfl ⟨Int.one_ne_zero, h.current⟩⟩

/-- At a mutex that is taken the task waits, behind the others. -/
theorem lock_wait (h : Represents k a) (howner : a.owner lock = some t)
    (hapart : ∀ m m' u, u ∈ a.wait m → u ∈ a.wait m' → m = m')
    (hnot : ∀ m, a.current ∉ a.wait m) (hne : a.current ≠ 0) :
    ∃ k', mutexLock k lock = (false, k') ∧
      Represents k' { a with
        state := Function.update a.state a.current .blocked
        wait := Function.update a.wait lock (a.wait lock ++ [a.current]) } := by
  have hlocked := h.owner lock
  rw [howner] at hlocked
  have hadd := (h.setState a.current .blocked).addWait hapart hnot hne lock
  have hyield := hadd.yield_blocked (Function.update_self ..)
  refine ⟨_, ?_, hadd⟩
  unfold mutexLock
  rw [if_pos hlocked.1, h.current]
  show (false, yield _) = _
  rw [hyield]

theorem unlock_nil (h : Represents k a) (hwait : a.wait lock = []) :
    ∃ k', mutexUnlock k lock = (0, k') ∧
      Represents k' { a with owner := Function.update a.owner lock none } := by
  have hfree := h.setOwner lock { k.mutexes lock with locked := 0, holder := 0 } none rfl ⟨rfl, rfl⟩
  refine ⟨_, if_neg (not_not.mpr ?_), hfree⟩
  exact (hfree.wait lock).head_eq_zero_iff.mpr hwait

/-- The first that waits is woken, and the mutex is free. -/
theorem unlock_cons {rest : List Addr} (h : Represents k a)
    (hapart : ∀ m m' u, u ∈ a.wait m → u ∈ a.wait m' → m = m') (hwait : a.wait lock = t :: rest)
    (hnot : t ∉ a.ready) (hne : t ≠ 0) :
    ∃ k', mutexUnlock k lock = (t, k') ∧
      Represents k' { a with
        state := Function.update a.state t .ready
        ready := a.ready ++ [t]
        wait := Function.update a.wait lock rest
        owner := Function.update a.owner lock none } := by
  have hfree := h.setOwner lock { k.mutexes lock with locked := 0, holder := 0 } none rfl ⟨rfl, rfl⟩
  obtain ⟨k', hremove, hk'⟩ := hfree.removeWait_cons hapart hwait
  refine ⟨_, ?_, (hk'.setState t .ready).addReady hnot hne⟩
  unfold mutexUnlock
  rw [if_pos, hremove]
  rw [ne_eq, (hfree.wait lock).head_eq_zero_iff, hwait]
  exact List.cons_ne_nil t rest

end Represents

/-! ## The simulation -/

/-- The state of the run is the state of the model. -/
def Simulates (s : Sys) (a : Model) : Prop := Represents s.kernel a ∧ s.control = a.control

theorem simulates_init (reaper : Addr) (base : BitVec 32) :
    Simulates (Sys.init reaper base) (Model.init reaper) := by
  refine ⟨⟨?_, rfl, rfl, Queue.holds_empty _, Queue.holds_empty _, fun _ => Queue.holds_empty _,
    fun _ => ⟨rfl, rfl⟩⟩, rfl⟩
  funext t
  show Function.update (Function.update (fun _ => TaskState.blocked) reaper .blocked) reaper
    .blocked t = .blocked
  rw [Function.update_idem, Function.update_apply]
  exact ite_self _

section

variable {s s' : Sys} {a a' : Model} {act : Action}

/-- Being in no `mutex_lock` is the same on both sides. -/
theorem Simulates.outside_iff (h : Simulates s a) : s.Outside ↔ a.Outside := by
  unfold Sys.Outside Model.Outside
  rw [h.2, h.1.current]

theorem Simulates.mayCall_iff (h : Simulates s a) : s.MayCall ↔ a.MayCall := by
  unfold Sys.MayCall Model.MayCall
  rw [h.outside_iff, h.1.current, h.1.reaper]

/-- Going through the loop of `mutex_lock`, by a call or after a wake-up. -/
theorem Simulates.lockStep (h : Simulates s a) (hinv : a.WellPlaced) {lock : Addr}
    (hlocks : a.Locks lock act) :
    ∃ a', a.Step act a' ∧ Simulates (s.lockStep lock) a' := by
  obtain ⟨hrep, hcontrol⟩ := h
  have hphase := hlocks.phase_running
  have hne := hinv.ne_zero (hinv.coherent.current_mem hphase)
  have hnot := hinv.notMem (.inr (hinv.coherent.current_running hphase))
  unfold Sys.lockStep
  cases howner : a.owner lock with
  | none =>
    obtain ⟨k', hlock, hk'⟩ := hrep.lock_free howner
    refine ⟨_, .acquire hlocks howner, ?_⟩
    rw [hlock, hcontrol, hrep.current]
    exact ⟨hk'.control _, rfl⟩
  | some t =>
    obtain ⟨k', hlock, hk'⟩ := hrep.lock_wait howner hinv.wait_apart hnot.2.2 hne
    refine ⟨_, .block hlocks howner, ?_⟩
    rw [hlock, hcontrol, hrep.current]
    exact ⟨hk'.control _, rfl⟩

/-- Every step of the kernel is a step of the model. -/
theorem Simulates.step (h : Simulates s a) (hinv : a.WellPlaced) (hstep : s.step act = some s') :
    ∃ a', a.Step act a' ∧ Simulates s' a' := by
  obtain ⟨hrep, hcontrol⟩ := h
  have hcall := Simulates.mayCall_iff ⟨hrep, hcontrol⟩
  have hout := Simulates.outside_iff ⟨hrep, hcontrol⟩
  unfold Sys.step at hstep
  cases act with
  | createTask task base id =>
    obtain ⟨⟨hwho, hne, hfresh⟩, hs'⟩ := Option.ite_none_right_eq_some.mp hstep
    rw [hcontrol, hcall] at hwho
    rw [hcontrol] at hfresh
    -- an address that holds no task stands in no queue
    obtain ⟨hready, hdead, hwait⟩ := hinv.notMem (.inl hfresh)
    refine ⟨_, .create hwho hne hfresh, ?_⟩
    rw [← Option.some.inj hs', hcontrol]
    exact ⟨(hrep.createTask hready hdead hwait hne base id).control _, rfl⟩
  | schedule =>
    obtain ⟨hphase, hs'⟩ := Option.ite_none_right_eq_some.mp hstep
    rw [hcontrol] at hphase
    refine ⟨_, .schedule hphase, ?_⟩
    rw [← Option.some.inj hs', hcontrol]
    exact ⟨hrep.control _, rfl⟩
  | dispatch =>
    obtain ⟨hphase, hs'⟩ := Option.ite_none_right_eq_some.mp hstep
    rw [hcontrol] at hphase
    cases hready : a.ready with
    | nil =>
      -- with an empty ready queue the idle loop only looks again
      rw [hrep.dispatch_nil hready] at hs'
      cases hs'
    | cons task rest =>
      have hne := hinv.ne_zero (hready ▸ hinv.queued.ready).head.1
      obtain ⟨k', hdispatch, hcurrent, hk'⟩ := hrep.dispatch hready hne
      rw [hdispatch] at hs'
      refine ⟨_, .dispatch hphase hready, ?_⟩
      rw [← Option.some.inj hs', hcontrol, ← hcurrent]
      subst hcurrent
      exact ⟨hk'.control _, rfl⟩
  | timer =>
    obtain ⟨hwho, hs'⟩ := Option.ite_none_right_eq_some.mp hstep
    rw [hout] at hwho
    have hrun := hinv.coherent.current_running hwho.1
    have hne := hinv.ne_zero (hinv.coherent.current_mem hwho.1)
    refine ⟨_, .timer hwho, ?_⟩
    rw [← Option.some.inj hs', hcontrol, hrep.current]
    exact ⟨(hrep.yield_running hrun (hinv.notMem (.inr hrun)).1 hne).control _, rfl⟩
  | threadExit =>
    obtain ⟨hwho, hs'⟩ := Option.ite_none_right_eq_some.mp hstep
    rw [hcall] at hwho
    have hrun := hinv.coherent.current_running hwho.1.1
    have hne := hinv.ne_zero (hinv.coherent.current_mem hwho.1.1)
    have hdead := (hinv.notMem (.inr hrun)).2.1
    by_cases hreaper : a.state a.reaper = .blocked
    · -- the idle reaper is in no queue yet
      have hready : a.reaper ∉ a.ready := by
        rw [hinv.queued.ready.mem_iff, hreaper]
        exact fun h => nomatch h.2
      have hzero := hinv.ne_zero hinv.coherent.reaper_mem
      refine ⟨_, .exitWaking hwho hreaper, ?_⟩
      rw [← Option.some.inj hs', hcontrol, hrep.current]
      exact ⟨(hrep.exitWaking hdead hne hwho.2 hreaper hready hzero).control _, rfl⟩
    · -- the reaper is awake, so only the corpse is queued
      refine ⟨_, .exit hwho hreaper, ?_⟩
      rw [← Option.some.inj hs', hcontrol, hrep.current]
      exact ⟨(hrep.exit hdead hne hwho.2 hreaper).control _, rfl⟩
  | mutexLock lock =>
    obtain ⟨hwho, hs'⟩ := Option.ite_none_right_eq_some.mp hstep
    rw [hcall] at hwho
    rw [← Option.some.inj hs']
    exact Simulates.lockStep ⟨hrep, hcontrol⟩ hinv (.call hwho)
  | resumeLock =>
    obtain ⟨hphase, hs'⟩ := Option.ite_none_right_eq_some.mp hstep
    rw [hcontrol] at hphase
    split at hs'
    · cases hs'
    · next lock hpoint =>
      rw [hcontrol, hrep.current] at hpoint
      rw [← Option.some.inj hs']
      exact Simulates.lockStep ⟨hrep, hcontrol⟩ hinv (.resume hphase hpoint)
  | mutexUnlock lock =>
    obtain ⟨hwho, hs'⟩ := Option.ite_none_right_eq_some.mp hstep
    rw [hcall] at hwho
    cases hwait : a.wait lock with
    | nil =>
      obtain ⟨k', hunlock, hk'⟩ := hrep.unlock_nil hwait
      rw [hunlock] at hs'
      refine ⟨_, .unlock hwho hwait, ?_⟩
      rw [← Option.some.inj hs', hcontrol, hrep.current]
      exact ⟨hk'.control _, rfl⟩
    | cons task rest =>
      -- a waiting task is blocked, so it is in no other queue
      obtain ⟨htask, hstate, -⟩ := (hwait ▸ hinv.queued.wait lock).head
      have hready : task ∉ a.ready := by
        rw [hinv.queued.ready.mem_iff, hstate]
        exact fun h => nomatch h.2
      obtain ⟨k', hunlock, hk'⟩ :=
        hrep.unlock_cons hinv.wait_apart hwait hready (hinv.ne_zero htask)
      rw [hunlock] at hs'
      refine ⟨_, .unlockWaking hwho hwait, ?_⟩
      rw [← Option.some.inj hs', hcontrol, hrep.current]
      exact ⟨hk'.control _, rfl⟩
  | reaperRound =>
    obtain ⟨⟨hwho, hreaper⟩, hs'⟩ := Option.ite_none_right_eq_some.mp hstep
    rw [hout] at hwho
    rw [hrep.current, hrep.reaper] at hreaper
    cases hdead : a.dead with
    | nil =>
      -- no corpse: the round ends in `yield` with the reaper blocked
      obtain ⟨k', hround, hk'⟩ := hrep.sleep hdead hreaper
      rw [hround] at hs'
      change (if (0 : Addr) = 0 then _ else _) = _ at hs'
      rw [if_pos rfl] at hs'
      refine ⟨_, .sleep hwho hreaper hdead, ?_⟩
      rw [← Option.some.inj hs', hcontrol]
      exact ⟨hk'.control _, rfl⟩
    | cons corpse rest =>
      have hne := hinv.ne_zero (hdead ▸ hinv.queued.dead).head.1
      obtain ⟨k', hround, hk'⟩ := hrep.reap hdead hne
      rw [hround] at hs'
      change (if corpse = 0 then _ else _) = _ at hs'
      rw [if_neg hne] at hs'
      refine ⟨_, .reap hwho hreaper hdead, ?_⟩
      rw [← Option.some.inj hs', hcontrol]
      exact ⟨hk'.control _, rfl⟩

/-! ### The other way round -/

/-- What the model can do the kernel can do. -/
theorem Simulates.enabled (h : Simulates s a) (hinv : a.WellPlaced) (hstep : a.Step act a') :
    ∃ s', s.step act = some s' := by
  cases hstep with
  | create hcall hne hfresh =>
    rw [← h.2, ← h.mayCall_iff] at hcall
    rw [← h.2] at hfresh
    exact ⟨_, if_pos ⟨hcall, hne, hfresh⟩⟩
  | schedule hphase => exact ⟨_, if_pos (h.2 ▸ hphase)⟩
  | dispatch hphase hready =>
    have hzero := hinv.ne_zero (hready ▸ hinv.queued.ready).head.1
    obtain ⟨k', hdispatch, -⟩ := h.1.dispatch hready hzero
    rw [← h.2] at hphase
    simp [Sys.step, hphase, hdispatch]
  | timer hout => exact ⟨_, if_pos (h.outside_iff.mpr hout)⟩
  | exitWaking hcall hreaper | exit hcall hreaper => exact ⟨_, if_pos (h.mayCall_iff.mpr hcall)⟩
  | acquire hlocks hfree | block hlocks howner =>
    cases hlocks with
    | call hcall => exact ⟨_, if_pos (h.mayCall_iff.mpr hcall)⟩
    | resume hphase hpoint =>
      rw [← h.2] at hphase
      rw [← h.2, ← h.1.current] at hpoint
      simp [Sys.step, hphase, hpoint]
  | unlockWaking hcall hwait | unlock hcall hwait => exact ⟨_, if_pos (h.mayCall_iff.mpr hcall)⟩
  | reap hout hreaper hdead | sleep hout hreaper hdead =>
    have hcurrent : s.kernel.currentTask = s.kernel.reaperTask := by
      rw [h.1.current, h.1.reaper, hreaper]
    refine Option.isSome_iff_exists.mp ?_
    simp only [Sys.step, if_pos (And.intro (h.outside_iff.mpr hout) hcurrent)]
    split <;> rfl

/-- The kernel makes every step that the model makes. -/
theorem Simulates.follow (h : Simulates s a) (hinv : a.WellPlaced) (hstep : a.Step act a') :
    ∃ s', s.step act = some s' ∧ Simulates s' a' := by
  obtain ⟨s', hs'⟩ := h.enabled hinv hstep
  obtain ⟨a₁, hstep₁, hsim⟩ := h.step hinv hs'
  obtain rfl := hstep.unique hstep₁
  exact ⟨s', hs', hsim⟩

/-- A stretch of a run of the model is one of the kernel. -/
theorem Simulates.follow_steps (h : Simulates s a) (hreach : Model.system.Reachable a)
    (hsteps : Model.system.Steps a a') : ∃ s', taskSystem.Steps s s' ∧ Simulates s' a' := by
  induction hsteps with
  | refl => exact ⟨s, .refl, h⟩
  | step hrest hstep ih =>
    obtain ⟨s₁, hs₁, hsim⟩ := ih
    obtain ⟨s', hs', hsim'⟩ := hsim.follow (wellPlaced_of_reachable (hreach.steps hrest)) hstep
    exact ⟨s', .step hs₁ hs', hsim'⟩

end

/-- Every reachable state of the kernel is one of a run of the model. -/
theorem taskSystem_simulated {s : Sys} (h : taskSystem.Reachable s) :
    ∃ a, Model.system.Reachable a ∧ Simulates s a := by
  refine h.simulated (R := Simulates) (U := Model.system) ?_ ?_
  · rintro _ ⟨reaper, base, hne, rfl⟩
    exact ⟨Model.init reaper, ⟨reaper, hne, rfl⟩, simulates_init reaper base⟩
  · intro _ _ _ _ hstep hreach hsim
    exact hsim.step (wellPlaced_of_reachable hreach) hstep

end Pelikan

end SystemsProjects

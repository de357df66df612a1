import SystemsProjects.Pelikan.Itoa
import SystemsProjects.Pelikan.Reaping
import SystemsProjects.Pelikan.TaskList

/-!
# What `mem` and `ps` add up to

The number that `mem` prints, in a run of tasks that are created, exit and are reaped. A task that
was not reaped yet has two frames and a line in the listing of `ps`; the heap keeps the frames that
it has obtained.

- `Conserved.ncard_used`: the frames in use, counted owner by owner.
- `mem_accounts`: at any two moments the numbers differ by the frames of the tasks and of the heap
  only.

The bookkeeping is an identity that holds in every state: the free frames, those of the heap,
those in use at first and two for each task make up all frames (`reports_of_reachable`). Two
such identities, taken at two moments and subtracted, are `mem_accounts`; what was in use at
first cancels out. It is asked that the allocations of `create_task` succeed and that the guards
have their page tables, the conditions of the runs of `Reaping`.
-/

namespace SystemsProjects

namespace Pelikan

open TransitionSystem

/-- `cmd_mem`, and what it prints. -/
def cmdMem (b : Bitmap) : Except PmmStop (List String) := do
  let free ← pmmFreeCount b
  return ["free frames: ", itoa free, "\n"]

/-! ## Counting frames -/

section

variable {x x' : Reaping} {b : Bitmap}

/-- Each frame is in use or free. -/
theorem freeFrames_add_used (b : Bitmap) :
    (freeFrames b).card + (usedFrames b).ncard = maxFrames := by
  have hused : usedFrames b = ↑((Finset.range maxFrames).filter fun f => ¬ bitAt b f = false) := by
    ext f
    simp [usedFrames]
  have hsum := Finset.card_filter_add_card_filter_not (s := Finset.range maxFrames)
    (fun f => bitAt b f = false)
  rw [Finset.card_range] at hsum
  rw [hused, Set.ncard_coe_finset]
  exact hsum

theorem usedFrames_finite (b : Bitmap) : (usedFrames b).Finite :=
  (Finset.finite_toSet (Finset.range maxFrames)).subset fun f hf => by
    rw [Finset.mem_coe, Finset.mem_range]
    exact hf.1

/-- The frames in use: those in use at first, those of the heap, and two for each task. -/
theorem Conserved.ncard_used (h : Conserved x) : (usedFrames x.heap.bitmap).ncard =
    x.usedFirst.ncard + x.heapFrames.ncard + 2 * x.sys.control.unreaped.card := by
  classical
  have hall : ∀ o f, x.Owns o f →
      o ∈ insert Owner.first (insert Owner.heap (x.sys.control.unreaped.image Owner.task)) := by
    intro o f ho
    cases o with
    | first | heap => simp
    | task t => simp [ho.1]
  have htask : ∀ t ∈ x.sys.control.unreaped, {f | x.Owns (.task t) f}.ncard = 2 := by
    intro t ht
    have hset : {f | x.Owns (.task t) f} = ↑(taskFrames x.sys.kernel t) := by
      ext f
      exact and_iff_right ht
    rw [hset, Set.ncard_coe_finset, h.two t ht]
  have hinjective : ∀ t ∈ x.sys.control.unreaped, ∀ u ∈ x.sys.control.unreaped,
      Owner.task t = Owner.task u → t = u := fun t _ u _ heq => Owner.task.inj heq
  rw [h.frames.ncard_used (usedFrames_finite _) _ hall, Finset.sum_insert (by simp),
    Finset.sum_insert (by simp), Finset.sum_image hinjective, Finset.sum_const_nat htask,
    Nat.mul_comm 2, Nat.add_assoc]
  rfl

/-! ## Two commands -/

/-- `mem` prints the number, and `ps` these lines. -/
structure Reports (x : Reaping) (number : Nat) (lines : List String) : Prop where
  mem : ∃ text, cmdMem x.heap.bitmap = .ok ["free frames: ", text, "\n"] ∧
    IsDecimal (ascii text.toList) number
  ps : Yields (schedulerListTasks x.sys.kernel) lines

/-- Both return, and with the frames in use at first and those of the heap they make up all
frames. -/
theorem reports_of_reachable (h : reapSystem.Reachable x)
    (hrunning : x.sys.control.phase = .running) :
    ∃ number lines, Reports x number lines ∧
      number + 2 * lines.length + x.usedFirst.ncard + x.heapFrames.ncard = maxFrames := by
  obtain ⟨l, frames, hx⟩ := holding_of_reachable h
  obtain ⟨ring, hring, hmem⟩ := ringHolds_of_reachable hx.reach
  have hcurrent := (hmem _).mpr (current_mem_unreaped hx.reach hrunning)
  obtain ⟨tasks, hnodup, htasks, -, hyields⟩ := hring.listTasks hcurrent
  have hlen := length_eq_card hnodup fun t => (htasks t).trans (hmem t)
  refine ⟨(freeFrames x.heap.bitmap).card, tasks.map (taskLine x.sys.kernel),
    ⟨⟨itoa (BitVec.ofNat 32 (freeFrames x.heap.bitmap).card), ?_, ?_⟩, hyields⟩, ?_⟩
  · rw [cmdMem, pmmFreeCount_eq, ok_bind]
    rfl
  · rw [ascii_itoa, freeFrames_card_toNat]
    exact isDecimal_decimalText _
  · have hall := freeFrames_add_used x.heap.bitmap
    rw [hx.conserved.ncard_used] at hall
    rw [List.length_map, hlen]
    omega

/-- Nobody gets to the frames in use at first, and the heap keeps its frames. -/
theorem heapFrames_subset (hsteps : reapSystem.Steps x x') :
    x'.usedFirst = x.usedFirst ∧ x.heapFrames ⊆ x'.heapFrames := by
  induction hsteps with
  | refl => exact ⟨rfl, subset_rfl⟩
  | step _ hstep ih =>
    cases hstep with
    | create hcall hmem => exact ⟨ih.1, ih.2.trans Set.subset_union_left⟩
    | sleep | reap | other | store => exact ih

/-- Between any two moments of any run at which a task has the CPU, `mem` and `ps` return, and what
`mem` lost are the two frames of each task that `ps` shows more, and the frames that the heap has
obtained since. No frame is lost otherwise, and none is counted twice. -/
theorem mem_accounts (h : reapSystem.Reachable x) (hsteps : reapSystem.Steps x x')
    (hrunning : x.sys.control.phase = .running) (hrunning' : x'.sys.control.phase = .running) :
    ∃ number lines number' lines', Reports x number lines ∧ Reports x' number' lines' ∧
      number + 2 * lines.length =
        number' + 2 * lines'.length + (x'.heapFrames \ x.heapFrames).ncard := by
  obtain ⟨hfirst, hheap⟩ := heapFrames_subset hsteps
  obtain ⟨number, lines, hreports, hsum⟩ := reports_of_reachable h hrunning
  obtain ⟨number', lines', hreports', hsum'⟩ := reports_of_reachable (h.steps hsteps) hrunning'
  refine ⟨number, lines, number', lines', hreports, hreports', ?_⟩
  have hfinite : x'.heapFrames.Finite := by
    obtain ⟨l, frames, hx⟩ := holding_of_reachable (h.steps hsteps)
    rw [hx.frames_eq]
    exact Finset.finite_toSet frames
  have hgrown := Set.ncard_sdiff_add_ncard_of_subset hheap hfinite
  rw [hfirst] at hsum'
  omega

end

/-- A task is created and dispatched. -/
def startRun : List ReapAction := [.create 1, .other .schedule, .other .dispatch]

/-- It exits and is reaped. -/
def endRun : List ReapAction := [.other .threadExit, .other .dispatch, .reaper]

theorem startRun_endRun : (bootReaping.bind fun x => (runActions reapExec startRun x).bind fun y =>
    (runActions reapExec endRun y).map fun z => (y.sys.control.phase, z.sys.control.phase,
      y.sys.control.unreaped, z.sys.control.unreaped)) =
        some (.running, .running, {1048660, 1048596}, {1048596}) := by
  decide +kernel

theorem mem_accounts_endRun : ∃ x x', reapSystem.Reachable x ∧ reapSystem.Steps x x' ∧
    x.sys.control.unreaped = {1048660, 1048596} ∧ x'.sys.control.unreaped = {1048596} ∧
    ∃ number lines number' lines', Reports x number lines ∧ Reports x' number' lines' ∧
      number + 2 * lines.length =
        number' + 2 * lines'.length + (x'.heapFrames \ x.heapFrames).ncard := by
  obtain ⟨x₀, hinit, hrest⟩ := Option.bind_eq_some_iff.mp startRun_endRun
  obtain ⟨x, hstart, hrest⟩ := Option.bind_eq_some_iff.mp hrest
  obtain ⟨x', hend, hphases⟩ := Option.map_eq_some_iff.mp hrest
  obtain ⟨hrunning, hphases⟩ := Prod.mk.inj hphases
  obtain ⟨hrunning', hphases⟩ := Prod.mk.inj hphases
  obtain ⟨hunreaped, hunreaped'⟩ := Prod.mk.inj hphases
  have hsteps := Steps.runActions (fun _ a _ hs => ⟨a, reapExec_step _ _ _ hs⟩) hend
  have hreach : reapSystem.Reachable x :=
    (Reachable.init (bootReaping_initial hinit)).runActions
      (fun _ a _ hs => ⟨a, reapExec_step _ _ _ hs⟩) hstart
  exact ⟨x, x', hreach, hsteps, hunreaped, hunreaped',
    mem_accounts hreach hsteps hrunning hrunning'⟩

end Pelikan

end SystemsProjects

import SystemsProjects.Pelikan.CreateTask

/-!
# Page tables over a whole run of the kernel

`bootSystem`: what `kmain` and the tasks do with page tables. `kmain` unmaps the guard below the
boot stack, later each `create_task` unmaps a guard and the reaper maps it again. Nobody calls
`vmm_init`, so `page_directory` stays 0, and the first call takes the words at the start of the
memory for a page directory.

The other code of the kernel may do to the memory, the bitmap and the tasks what it likes.

`vmm_init` is in the repository and right by itself (see `Translation` and `VmmRuns`). Here it
is never reached, and so every store that the vmm makes goes somewhere else: the run lemma is
that from the first call on such a store has been made (`storesBlindly_of_reachable`).
-/

namespace SystemsProjects

namespace Pelikan

open TransitionSystem

/-- The end of an iteration of the reaper, for the corpse it has found. -/
def reapCorpse (s : Tasking) (corpse : Addr) : Except PmmStop Tasking := do
  let kernel := removeTaskFromCircularList s.kernel corpse
  let stackBase := kernel.stackBase corpse
  let guard := stackBase - 4096
  let (heap, paging) ← vmmMapPage s.heap s.paging guard.toNat guard.toNat
  let heap ← releaseTask heap stackBase corpse
  return ⟨heap, paging, kernel⟩

/-- `kmain` up to its call of `vmm_unmap_page`, and from there on. -/
structure Boot where
  tasking : Tasking
  guarded : Bool

/-- The steps of `kmain` and of the tasks that concern page tables. -/
inductive BootAction where
  /-- `vmm_unmap_page((uint32_t)&stack_bottom - 4096)` -/
  | unmapGuard (stackBottom : U32)
  | createTask (code id : U32) (type : Int)
  | reap (corpse : Addr)
  /-- Everything but the vmm. -/
  | other

/-- What they do to the memory, the frames and the tasks. -/
inductive BootStep : Boot → BootAction → Boot → Prop where
  | unmapGuard {s : Boot} (stackBottom : U32) (hfirst : s.guarded = false) :
      BootStep s (.unmapGuard stackBottom)
        { tasking := { s.tasking with
            heap := (vmmUnmapPage s.tasking.heap s.tasking.paging (stackBottom - 4096).toNat).1
            paging := (vmmUnmapPage s.tasking.heap s.tasking.paging (stackBottom - 4096).toNat).2 }
          guarded := true }
  | createTask {s : Boot} {code id : U32} {type : Int} {n : Nat} {task : Addr} {tasking : Tasking}
      (hboot : s.guarded = true)
      (hcall : createTaskCall s.tasking code id type n = .done (task, tasking)) :
      BootStep s (.createTask code id type) { s with tasking }
  | reap {s : Boot} {corpse : Addr} {tasking : Tasking} (hboot : s.guarded = true)
      (hcall : reapCorpse s.tasking corpse = .ok tasking) :
      BootStep s (.reap corpse) { s with tasking }
  | other {s : Boot} (heap : Heap) (kernel : Kernel) :
      BootStep s .other { s with tasking := { s.tasking with heap, kernel } }

/-- Any memory. The variables of `vmm.c` are zero. -/
def Boot.Start (s : Boot) : Prop := s.tasking.paging = ⟨0, [], []⟩ ∧ s.guarded = false

/-- The runs of the kernel from its start on. -/
def bootSystem : TransitionSystem Boot BootAction := ⟨Boot.Start, BootStep⟩

section

variable {s s' : Boot}

/-- `create_task` makes one store into a page table. -/
theorem createTaskCall_stores {s s' : Tasking} {code id : U32} {type : Int} {n : Nat} {task : Addr}
    (hcall : createTaskCall s code id type n = .done (task, s')) :
    s.paging.stores <:+ s'.paging.stores := by
  unfold createTaskCall at hcall
  cases hkmalloc : kmalloc s.heap taskSize n with
  | stop e =>
    rw [hkmalloc] at hcall
    cases hcall
  | out =>
    rw [hkmalloc] at hcall
    cases hcall
  | done r =>
    rw [hkmalloc] at hcall
    dsimp only at hcall
    split at hcall
    · cases hcall
    · obtain ⟨-, rfl⟩ := Prod.mk.inj (Fueled.done.inj hcall)
      exact List.suffix_cons ..

/-- The reaper makes one or two. -/
theorem reapCorpse_stores {s s' : Tasking} {corpse : Addr} (hcall : reapCorpse s corpse = .ok s') :
    s.paging.stores <:+ s'.paging.stores := by
  unfold reapCorpse at hcall
  dsimp only at hcall
  obtain ⟨⟨heap, paging⟩, hmap, hcall⟩ := bind_eq_ok.mp hcall
  obtain ⟨heap', -, hcall⟩ := bind_eq_ok.mp hcall
  obtain rfl := Except.ok.inj hcall
  exact vmmMapPage_stores hmap

/-- Before the first call nothing is stored. From then on there is a store made by a vmm without
frames. -/
def StoresBlindly (s : Boot) : Prop :=
  (s.guarded = false ∧ s.tasking.paging = ⟨0, [], []⟩) ∨
    s.guarded = true ∧ ∃ st ∈ s.tasking.paging.stores, st.obtained = []

/-- The first call stores without a directory, and what is stored stays stored. -/
theorem StoresBlindly.step {a : BootAction} (hs : StoresBlindly s) (hstep : BootStep s a s') :
    StoresBlindly s' := by
  -- stores that have been made stay made
  have hkeep : ∀ {tasking : Tasking}, s.guarded = true →
      s.tasking.paging.stores <:+ tasking.paging.stores → StoresBlindly { s with tasking } := by
    intro tasking hboot hstores
    rcases hs with ⟨hfirst, -⟩ | ⟨-, st, hst, hnone⟩
    · rw [hboot] at hfirst
      cases hfirst
    · exact .inr ⟨hboot, st, hstores.subset hst, hnone⟩
  cases hstep with
  | unmapGuard stackBottom hfirst =>
    rcases hs with ⟨-, hzero⟩ | ⟨hboot, -⟩
    · refine .inr ⟨rfl, _, List.mem_cons_self .., ?_⟩
      rw [hzero]
    · rw [hfirst] at hboot
      cases hboot
  | createTask hboot hcall => exact hkeep hboot (createTaskCall_stores hcall)
  | reap hboot hcall => exact hkeep hboot (reapCorpse_stores hcall)
  | other heap kernel => exact hs

theorem storesBlindly_of_reachable (hr : bootSystem.Reachable s) : StoresBlindly s :=
  hr.invariant (fun _ hstart => .inl ⟨hstart.2, hstart.1⟩) fun _ _ _ _ hs hstep => hs.step hstep

/-- All stores of a run go into page tables of the vmm exactly as long as none has been made. -/
theorem pageStores_real_iff (hr : bootSystem.Reachable s) :
    s.tasking.paging.Real ↔ s.guarded = false := by
  rcases storesBlindly_of_reachable hr with ⟨hfirst, hzero⟩ | ⟨hboot, st, hst, hnone⟩
  · refine iff_of_true ?_ hfirst
    rw [hzero]
    exact nofun
  · refine iff_of_false (fun hreal => ?_) ?_
    · obtain ⟨r, hr, -⟩ := hreal st hst
      rw [hnone] at hr
      cases hr
    · rw [hboot]
      exact nofun

end

/-! ## The first call -/

/-- `stack_bottom` at 0x108000, and zeros in the memory. -/
def bootGuard : Boot where
  tasking := { (idle emptyHeap) with
    heap := (vmmUnmapPage emptyHeap ⟨0, [], []⟩ 0x107000).1
    paging := (vmmUnmapPage emptyHeap ⟨0, [], []⟩ 0x107000).2 }
  guarded := true

/-- The call of `vmm_unmap_page` under the boot stack is reached. -/
theorem bootGuard_reachable : bootSystem.Reachable bootGuard := by
  have hstart : bootSystem.Reachable ⟨idle emptyHeap, false⟩ := .init ⟨rfl, rfl⟩
  exact hstart.step (.unmapGuard 0x108000 rfl)

theorem bootGuard_not_real : ¬ bootGuard.tasking.paging.Real := by
  rw [pageStores_real_iff bootGuard_reachable]
  exact nofun

/-- The store goes to the address 1052, and the vmm has no frame. -/
theorem bootGuard_store : bootSystem.Reachable bootGuard ∧
    bootGuard.tasking.paging.stores = [⟨1052, []⟩] ∧
    ¬ ∀ st ∈ bootGuard.tasking.paging.stores, st.Real := by
  have hstores : bootGuard.tasking.paging.stores = [⟨1052, []⟩] := rfl
  refine ⟨bootGuard_reachable, hstores, fun hreal => ?_⟩
  rw [hstores] at hreal
  obtain ⟨r, hr, -⟩ := hreal _ (List.mem_cons_self ..)
  cases hr

end Pelikan

end SystemsProjects

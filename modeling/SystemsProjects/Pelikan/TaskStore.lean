import SystemsProjects.Lib.Ownership
import SystemsProjects.Pelikan.Scheduler
import SystemsProjects.Pelikan.TaskMemory

/-!
# The memory of the tasks

A task has a `task_t` from the heap and two frames in a row, the guard and the stack, from the
frame allocator. The reaper gives all three back.

- `Stored`: the blocks of the heap that are in use, and who has the frames.
- `Stored.kmalloc`, `Stored.contiguous`: what `create_task` gets from the two allocators.
- `Stored.table`: a frame for a page table.
- `Stored.release`: what the reaper gives back.

The two allocators are independent, and each is followed by its own bookkeeping: the blocks of
the heap by `Cells` of `TaskCells`, the frames by the library's `Ownership`. They meet in one
place, when the heap takes a frame for itself.
-/

namespace SystemsProjects

namespace Pelikan

/-- The frames in use. -/
def usedFrames (b : Bitmap) : Set Nat := {f | f < maxFrames ∧ bitAt b f = true}

/-- The heap when `create_task` returns. -/
def Heap.withBitmap (h : Heap) (bitmap : Bitmap) : Heap := { h with bitmap }

/-- The releases of a reaper iteration: the guard, the stack, the `task_t`. -/
def releaseTask (h : Heap) (stackBase : U32) (corpse : Addr) : Except PmmStop Heap := do
  let b ← pmmFreeFrame h.bitmap (stackBase - 4096)
  let b ← pmmFreeFrame b stackBase
  return kfree (h.withBitmap b) corpse

/-- Who may own a frame: somebody in front of `spawn_reaper`, the heap, a task. -/
inductive Owner where
  | first
  | heap
  | task (t : Addr)

/-- The guard and the stack, by the address of the stack. -/
def stackFrames (stackBase : U32) : Finset Nat :=
  {(stackBase - 4096).toNat / 4096, stackBase.toNat / 4096}

/-- The blocks of the heap that are in use, and the owners of all frames in use. -/
structure Stored (h : Heap) (l : List Block) (frames : Finset Nat) (blocks : Addr → Prop)
    (owns : Owner → Nat → Prop) : Prop where
  cells : Cells h l frames
  inUse : ∀ p, InUse l p ↔ blocks p
  heap : ∀ f, owns .heap f ↔ f ∈ frames
  zero : owns .first 0
  frames : Ownership (usedFrames h.bitmap) owns

/-! ## Frames -/

section

variable {b b' : Bitmap} {f s : Nat} {base : U32} {h h' : Heap} {l l' : List Block}
  {frames : Finset Nat} {p : Nat}

/-- The address of the guard is that of the frame in front of the stack. -/
theorem frameAddr_succ (hs : s + 1 < maxFrames) : (frameAddr s + 4096).toNat = (s + 1) * 4096 ∧
    (frameAddr s + 4096 - 4096).toNat = s * 4096 := by
  have haddr := frameAddr_toNat (f := s) (by omega)
  have hsub : frameAddr s + 4096 - 4096 = frameAddr s := BitVec.add_sub_cancel ..
  rw [hsub, haddr]
  refine ⟨?_, rfl⟩
  have hval : (4096 : U32).toNat = 4096 := rfl
  rw [BitVec.toNat_add, haddr, hval]
  unfold maxFrames at hs
  omega

/-- A frame that is freed is not in use, all others are as they were. -/
theorem pmmFreeFrame_spec {addr : U32} (hlt : f < maxFrames) (haddr : addr.toNat = f * 4096) :
    ∃ b', pmmFreeFrame b addr = .ok b' ∧ usedFrames b' = usedFrames b \ {f} := by
  obtain ⟨b', hclear, hbits⟩ := clearFrame_eq (b := b) hlt
  refine ⟨b', ?_, ?_⟩
  · rw [pmmFreeFrame, haddr, Nat.mul_div_cancel f (by decide), hclear]
  · ext g
    simp only [usedFrames, Set.mem_sdiff, Set.mem_ofPred_eq, Set.mem_singleton_iff, hbits]
    by_cases hg : g = f <;> simp [hg]

/-- The two frames that `create_task` gets were free. -/
theorem pmmAllocContiguous_two (hcall : pmmAllocContiguous b 2 = .ok (base, b'))
    (hgranted : base ≠ noFrame) :
    ∃ s, base = frameAddr s ∧ s + 1 < maxFrames ∧ s ∉ usedFrames b ∧ s + 1 ∉ usedFrames b ∧
      usedFrames b' = usedFrames b ∪ {s, s + 1} := by
  rcases pmmAllocContiguous_spec b (n := 2) (by decide) with
    ⟨s, b₁, halloc, hrun, -, hbits⟩ | ⟨halloc, -⟩
  · rw [halloc] at hcall
    cases hcall
    have hlt : s + 2 ≤ maxFrames := hrun.1
    have hfree : ∀ g, s ≤ g → g < s + 2 → bitAt b g = false := hrun.2
    refine ⟨s, rfl, hlt, fun hin => ?_, fun hin => ?_, ?_⟩
    · exact absurd (hin.2.symm.trans (hfree s (by omega) (by omega))) nofun
    · exact absurd (hin.2.symm.trans (hfree (s + 1) (by omega) (by omega))) nofun
    · ext g
      have htwo : (2 : U32).toNat = 2 := rfl
      simp only [usedFrames, Set.mem_union, Set.mem_ofPred_eq, Set.mem_insert_iff,
        Set.mem_singleton_iff, hbits, htwo, Bool.or_eq_true, decide_eq_true_eq]
      constructor
      · rintro ⟨hg, hin | hbit⟩
        · right
          omega
        · exact .inl ⟨hg, hbit⟩
      · rintro (⟨hg, hbit⟩ | hg)
        · exact ⟨hg, .inr hbit⟩
        · exact ⟨by omega, .inl (by omega)⟩
  · rw [halloc] at hcall
    cases hcall
    exact absurd rfl hgranted

/-! ## Blocks -/

theorem flag_eq_zero_iff {c : Block} : c.flag = 0 ↔ c.free = false := by
  unfold Block.flag
  cases c.free <;> simp

/-- A block is in use by its header when it is on the list. -/
theorem Shape.blockInUse_iff (hs : Shape h l frames) : BlockInUse h p ↔ InUse l p := by
  have hfree : ∀ c ∈ l, h.get c.addr .free = 0 ↔ c.free = false := by
    intro c hc
    obtain ⟨next, hheader⟩ := hs.linked.exists_header hc
    rw [hheader.free, flag_eq_zero_iff]
  constructor
  · rintro ⟨path, hpath, a, ha, hflag, rfl⟩
    obtain rfl := hs.nextPath.unique hpath
    obtain ⟨c, hc, rfl⟩ := List.mem_map.mp ha
    exact ⟨c, hc, (hfree c hc).mp hflag, rfl⟩
  · rintro ⟨c, hc, hused, rfl⟩
    exact ⟨_, hs.nextPath, c.addr, List.mem_map_of_mem hc, (hfree c hc).mpr hused, rfl⟩

/-- The heap of the tasks depends on the words in its cells only, and its frames in use. -/
theorem Cells.congr (hc : Cells h l frames)
    (hget : ∀ v, v % 64 = 0 → v / 4096 ∈ frames → ∀ f, h'.get v f = h.get v f)
    (hhead : h'.head = h.head) (hused : ∀ f ∈ frames, bitAt h'.bitmap f = true)
    (hzero : bitAt h'.bitmap 0 = true) : Cells h' l frames := by
  obtain ⟨hs, hgrid, hprevs⟩ := hc
  have hblock : ∀ c ∈ l, ∀ f, h'.get c.addr f = h.get c.addr f :=
    fun c hc f => hget _ (hgrid c hc).addr (hs.block_frame hc) f
  refine ⟨⟨hhead.trans hs.head_eq, hs.linked.congr fun c hc f _ => hblock c hc f, hs.tiles,
    hs.size_pos, fun f hf => ?_, hzero⟩, hgrid, hprevs.imp (fun e v hv => ?_) fun c hc =>
      hblock c hc _⟩
  · obtain ⟨hpos, hlt, -⟩ := hs.used f hf
    exact ⟨hpos, hlt, hused f hf⟩
  · refine hv.mono (Finset.Subset.refl _) (fun _ => id) fun hv64 hin hok =>
      hok.mono (fun _ => id) (fun c hc haddr => .inl ⟨c, hc, haddr⟩) fun _ => ?_
    exact .inr (hget v hv64 hin _)

/-- A store outside the heap, or into a payload in use. -/
theorem Cells.store (hc : Cells h l frames) {mem : ByteMemory}
    (hmem : ∀ a, a / 4096 ∈ frames → (∀ t, InUse l t → a < t ∨ t + taskSize ≤ a) →
      mem a = h.mem a) : Cells { h with mem } l frames := by
  refine hc.congr (fun v hv64 hin f => ?_) rfl (fun f hf => (hc.shape.used f hf).2.2)
    hc.shape.zero_used
  refine get_congr (hc.shape.cell_le hin) fun a ha ha' => hmem a ?_ ?_
  · have hframe : a / 4096 = v / 4096 := by
      unfold blockSize at ha'
      omega
    rwa [hframe]
  · rintro _ ⟨c, hcm, hfree, rfl⟩
    have haddr := (hc.grid c hcm).addr
    unfold blockSize taskSize at *
    omega

end

/-! ## What the allocators hand out -/

section

variable {h h' : Heap} {l : List Block} {frames : Finset Nat} {blocks blocks' : Addr → Prop}
  {owns owns' : Owner → Nat → Prop} {task : Addr} {base : U32} {b : Bitmap} {s : Nat}

/-- The frames of the stack behind the frame `s`. -/
theorem stackFrames_eq (hs : s + 1 < maxFrames) :
    stackFrames (frameAddr s + 4096) = {s, s + 1} := by
  obtain ⟨hstack, hguard⟩ := frameAddr_succ hs
  unfold stackFrames
  rw [hguard, hstack, Nat.mul_div_cancel _ (by decide), Nat.mul_div_cancel _ (by decide)]

/-- Who has what may be described in another way. -/
theorem Stored.congr (hs : Stored h l frames blocks owns) (hblocks : ∀ p, blocks' p ↔ blocks p)
    (howns : ∀ o f, owns' o f ↔ owns o f) : Stored h l frames blocks' owns' := by
  obtain rfl : blocks' = blocks := funext fun p => propext (hblocks p)
  obtain rfl : owns' = owns := funext fun o => funext fun f => propext (howns o f)
  exact hs

/-- The heap depends on which of its frames are in use, of the bitmap. -/
theorem Stored.bitmap (hs : Stored h l frames blocks owns)
    (howns : Ownership (usedFrames b) owns') (hheap : ∀ f, owns' .heap f ↔ f ∈ frames)
    (hzero : owns' .first 0) : Stored (h.withBitmap b) l frames blocks owns' := by
  refine ⟨?_, hs.inUse, hheap, hzero, howns⟩
  refine hs.cells.congr (fun _ _ _ _ => rfl) rfl (fun f hf => ?_) ?_
  · exact (howns.mem_used ((hheap f).mpr hf)).2
  · exact (howns.mem_used hzero).2

/-- In front of `spawn_reaper` there is no heap. -/
theorem Stored.empty (hhead : h.head = 0) (hzero : bitAt h.bitmap 0 = true) :
    Stored h [] ∅ (fun _ => False) fun o f => o = .first ∧ f ∈ usedFrames h.bitmap where
  cells :=
    { shape :=
        { head_eq := hhead
          linked := trivial
          tiles := .nil fun _ => Finset.notMem_empty _
          size_pos := fun _ hb => absurd hb List.not_mem_nil
          used := fun _ hf => absurd hf (Finset.notMem_empty _)
          zero_used := hzero }
      grid := fun _ hb => absurd hb List.not_mem_nil
      prevs := trivial }
  inUse p := ⟨fun ⟨c, hc, _⟩ => List.not_mem_nil hc, False.elim⟩
  heap f := by simp
  zero := ⟨rfl, by decide, hzero⟩
  frames := by
    refine ⟨fun f => ⟨fun hf => ⟨.first, rfl, hf⟩, fun ⟨o, ho, hf⟩ => hf⟩, ?_⟩
    rintro f o o' ⟨rfl, -⟩ ⟨rfl, -⟩
    rfl

/-- `kmalloc` hands out a block that was not in use. The heap has one frame more, or none. -/
theorem Stored.kmalloc (hs : Stored h l frames blocks owns) (hleft : frameLeft h.bitmap = true)
    (hcall : Yields (Pelikan.kmalloc h taskSize) (task, h')) :
    task ≠ 0 ∧ ¬ blocks task ∧ ∃ l' frames', Stored h' l' frames' (fun p => p = task ∨ blocks p)
      fun o f => owns o f ∨ o = .heap ∧ f ∈ usedFrames h'.bitmap \ usedFrames h.bitmap := by
  obtain ⟨l', frames', hhanded⟩ := hs.cells.kmalloc hleft hcall
  -- the bits that are set afterwards: the old ones and the heap's frames
  have hused : usedFrames h'.bitmap = usedFrames h.bitmap ∪ ↑frames' := by
    ext f
    show _ ∧ _ ↔ (_ ∧ _) ∨ f ∈ frames'
    rw [hhanded.bits]
    constructor
    · rintro ⟨hf, hbit | hin⟩
      · exact .inl ⟨hf, hbit⟩
      · exact .inr hin
    · rintro (⟨hf, hbit⟩ | hin)
      · exact ⟨hf, .inl hbit⟩
      · exact ⟨(hhanded.cells.shape.used f hin).2.1, .inr hin⟩
  refine ⟨hhanded.ne_zero, fun hin => hhanded.fresh ((hs.inUse task).mpr hin), l', frames',
    hhanded.cells, fun p => ?_, fun f => ?_, .inl hs.zero, ?_⟩
  · rw [hhanded.inUse, hs.inUse]
  · rw [hs.heap, hused]
    constructor
    · rintro (hf | ⟨-, hf | hf, hnot⟩)
      · exact hhanded.subset hf
      · exact absurd hf hnot
      · exact hf
    · intro hf
      -- a frame the heap has now was its own, or was free before
      by_cases hin : f ∈ frames
      · exact .inl hin
      · refine .inr ⟨rfl, .inr hf, fun hbit => ?_⟩
        exact absurd (hbit.2.symm.trans (hhanded.free f hf hin)) nofun
  · refine hs.frames.grant .heap _ (fun f hf => hf.2) (fun f => ?_) fun o f => Iff.rfl
    rw [hused]
    simp only [Set.mem_union, Set.mem_sdiff]
    tauto

/-- `pmm_alloc_contiguous` hands out two frames. -/
theorem Stored.contiguous (hs : Stored h l frames blocks owns)
    (hcall : pmmAllocContiguous h.bitmap 2 = .ok (base, b)) (hgranted : base ≠ noFrame)
    (task : Addr) : ∃ s, base = frameAddr s ∧ s + 1 < maxFrames ∧
      Stored (h.withBitmap b) l frames blocks
        fun o f => owns o f ∨ o = .task task ∧ f ∈ stackFrames (base + 4096) := by
  obtain ⟨s, rfl, hlt, hguard, hstack, hused⟩ := pmmAllocContiguous_two hcall hgranted
  refine ⟨s, rfl, hlt, hs.bitmap ?_ (fun f => ?_) (.inl hs.zero)⟩
  · refine hs.frames.grant (.task task) {s, s + 1} ?_ (fun f => ?_) fun o f => ?_
    · rintro f (rfl | rfl)
      · exact hguard
      · exact hstack
    · rw [hused]
      exact Iff.rfl
    · rw [stackFrames_eq hlt]
      simp
  · rw [hs.heap]
    simp

/-- `vmm_map_page` takes a frame for a page table, and keeps it. -/
theorem Stored.table {frame : U32} (hs : Stored h l frames blocks owns)
    (hcall : pmmAllocFrame h.bitmap = .ok (frame, b)) :
    Stored (h.withBitmap b) l frames blocks
      fun o f => owns o f ∨ o = .first ∧ f ∈ usedFrames b \ usedFrames h.bitmap := by
  have hsub : usedFrames h.bitmap ⊆ usedFrames b := by
    rintro f ⟨hf, hbit⟩
    rcases pmmAllocFrame_spec h.bitmap with ⟨s, b', halloc, -, hbits⟩ | ⟨halloc, -⟩
    · obtain ⟨-, rfl⟩ := Prod.mk.inj (Except.ok.inj (halloc.symm.trans hcall))
      refine ⟨hf, ?_⟩
      rw [hbits, hbit, Bool.or_true]
    · obtain ⟨-, rfl⟩ := Prod.mk.inj (Except.ok.inj (halloc.symm.trans hcall))
      exact ⟨hf, hbit⟩
  refine hs.bitmap ?_ (fun f => ?_) (.inl hs.zero)
  · refine hs.frames.grant .first _ (fun f hf => hf.2) (fun f => ?_) fun o f => Iff.rfl
    simp only [Set.mem_sdiff]
    constructor
    · intro hf
      exact (Classical.em _).imp_right fun hnot => ⟨hf, hnot⟩
    · rintro (hf | ⟨hf, -⟩)
      · exact hsub hf
      · exact hf
  · rw [hs.heap]
    simp

/-- A store outside the heap, or into a block in use. -/
theorem Stored.store (hs : Stored h l frames blocks owns) {mem : ByteMemory}
    (hmem : ∀ a, a / 4096 ∈ frames → (∀ t, blocks t → a < t ∨ t + taskSize ≤ a) →
      mem a = h.mem a) : Stored { h with mem } l frames blocks owns where
  cells := hs.cells.store fun a ha hout => hmem a ha fun t ht => hout t ((hs.inUse t).mpr ht)
  inUse := hs.inUse
  heap := hs.heap
  zero := hs.zero
  frames := hs.frames

/-- The releases go through, and take from the task what it has. -/
theorem Stored.release (hs : Stored h l frames blocks owns) (hblock : blocks task)
    (hlt : s + 1 < maxFrames)
    (howns : ∀ f, owns (.task task) f ↔ f ∈ stackFrames (frameAddr s + 4096)) :
    ∃ heap l', releaseTask h (frameAddr s + 4096) task = .ok heap ∧
      usedFrames heap.bitmap = usedFrames h.bitmap \ ↑(stackFrames (frameAddr s + 4096)) ∧
      Stored heap l' frames (fun p => blocks p ∧ p ≠ task)
        fun o f => owns o f ∧ o ≠ .task task := by
  obtain ⟨hstack, hguard⟩ := frameAddr_succ hlt
  obtain ⟨b₁, hfree₁, hused₁⟩ :=
    pmmFreeFrame_spec (b := h.bitmap) (Nat.lt_of_succ_lt hlt) hguard
  obtain ⟨b₂, hfree₂, hused₂⟩ := pmmFreeFrame_spec (b := b₁) hlt hstack
  have hused : usedFrames b₂ = usedFrames h.bitmap \ ↑(stackFrames (frameAddr s + 4096)) := by
    rw [hused₂, hused₁, stackFrames_eq hlt]
    ext f
    simp [and_assoc]
  -- no other owner loses a frame
  have hrevoked : Ownership (usedFrames b₂) fun o f => owns o f ∧ o ≠ .task task := by
    refine hs.frames.revoke (o := .task task) (fun f => ?_) fun o f => Iff.rfl
    rw [hused, howns]
    exact Iff.rfl
  have hstored : Stored (h.withBitmap b₂) l frames blocks fun o f => owns o f ∧ o ≠ .task task :=
    hs.bitmap hrevoked (fun f => by rw [hs.heap]; simp) ⟨hs.zero, by simp⟩
  obtain ⟨l', hreturned⟩ := hstored.cells.kfree ((hs.inUse task).mpr hblock)
  have hbitmap : (kfree (h.withBitmap b₂) task).bitmap = b₂ := kfree_bitmap ..
  refine ⟨_, l', ?_, ?_, hreturned.cells, fun p => ?_, hstored.heap, hstored.zero, ?_⟩
  · unfold releaseTask
    rw [hfree₁, ok_bind, hfree₂]
    rfl
  · rw [hbitmap]
    exact hused
  · rw [hreturned.inUse, hs.inUse]
  · rw [hbitmap]
    exact hrevoked

end

end Pelikan

end SystemsProjects

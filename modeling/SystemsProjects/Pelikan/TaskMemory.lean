import SystemsProjects.Pelikan.TaskCells

/-!
# Memory for a task

`kmalloc` on the heap of the tasks. The block that serves the request is cut or fits exactly, so
all blocks stay on multiples of 64 (`Cells.allocated`), and a new frame is linked behind the last
block (`Cells.grow`). `Cells.kmalloc` says what a call hands out.

The argument is the one of `HeapAlloc` and `HeapSearch` with a stale `prev` in mind: cutting a
cell off a free block makes the next cell a block, and a `prev` word that led into the free
block may now lead to that one.
-/

namespace SystemsProjects

namespace Pelikan

section

variable {h h' : Heap} {b c : Block} {l pre post : List Block} {frames : Finset Nat}
  {P : Nat → Nat → Prop} {a e f p q v size : Nat} {bitmap : Bitmap}

/-! ## Serving a request -/

/-- The parts of a block touch: cutting it opens no gap. -/
theorem Smooth.taken (ha : Smooth (pre ++ ([b] ++ post)) a) :
    Smooth (pre ++ (b.taken size ++ post)) a := by
  unfold Block.taken
  split
  · next hcuts =>
    have hcut : size + 20 + 1 ≤ b.size := hcuts
    have hstop : (b.rest size).stop = b.stop := by
      show b.addr + 20 + size + 20 + (b.size - size - 20) = b.addr + 20 + b.size
      omega
    refine ha.replace nofun nofun rfl hstop fun hin => ?_
    rcases hin with ⟨hlt, hlt'⟩ | ⟨heq, hzero⟩ | hin
    · have hrest : (b.rest size).addr = b.addr + 20 + size := rfl
      rcases Nat.lt_trichotomy a (b.addr + 20 + size) with hless | rfl | hgt
      · exact .inl ⟨hlt, hless⟩
      · exact .inr (.inl ⟨rfl, rfl⟩)
      · exact .inr (.inr (.inl ⟨hgt, by rwa [hstop]⟩))
    · have hpos := b.stop_pos
      have hzero : 0 = a := hzero
      omega
    · exact absurd hin id
  · exact ha.replace nofun nofun rfl rfl id

/-- The `prev` words of the parts, and those behind them. -/
theorem prevs_taken (hfirst : P e (h.get b.addr .prev))
    (hrest : b.Cuts size → P (b.addr + blockSize + size) (h.get (b.rest size).addr .prev))
    (hpost : Prevs P h b.stop post) : Prevs P h e (b.taken size ++ post) := by
  unfold Block.taken
  split
  · next hcuts =>
    have hcut : size + 20 + 1 ≤ b.size := hcuts
    have hstop : (b.rest size).stop = b.stop := by
      show b.addr + 20 + size + 20 + (b.size - size - 20) = b.addr + 20 + b.size
      omega
    refine ⟨hfirst, hrest hcuts, ?_⟩
    show Prevs P h (b.rest size).stop post
    rw [hstop]
    exact hpost
  · exact ⟨hfirst, hpost⟩

/-- Only the header of the block and that of the rest are written. -/
theorem allocated_get_of_apart (hle : b.stop ≤ 134217728)
    (hv : v + blockSize ≤ 4294967296) (hapart : HeadersApart b.addr v)
    (hrest : b.Cuts size → HeadersApart (b.rest size).addr v) {g : Field} :
    (allocated h b size).get v g = h.get v g := by
  have hb32 : b.addr + blockSize ≤ 4294967296 := by
    unfold Block.stop at hle
    omega
  unfold allocated
  split
  · next hcuts =>
    have hcut : size + 20 + 1 ≤ b.size := hcuts
    have hstop : b.addr + 20 + b.size ≤ 134217728 := hle
    have hnew : u32 (b.addr + blockSize + size) = (b.rest size).addr := Nat.mod_eq_of_lt (by
      unfold blockSize
      omega)
    have hr32 : (b.rest size).addr + blockSize ≤ 4294967296 := by
      show b.addr + 20 + size + 20 ≤ _
      omega
    have hrest := hrest hcuts
    unfold splitBlock
    rw [hnew]
    simp (disch := assumption) only [get_set_of_apart]
  · simp (disch := assumption) only [get_set_of_apart]

section Allocated

variable (hc : Cells h (pre ++ ([b] ++ post)) frames) (hfits : b.Fits taskSize)
include hc hfits

/-- What is cut off stands on the next multiple of 64. -/
theorem Cells.taken_grid (hcm : c ∈ b.taken taskSize) : c.OnGrid := by
  have hb := hc.grid b (List.mem_append_right _ (List.mem_cons_self ..))
  have haddr := hb.addr
  have hsize := hb.size
  unfold taskSize at hsize
  unfold Block.taken at hcm
  split at hcm
  · next hcuts =>
    have hcut : 44 + 20 + 1 ≤ b.size := hcuts
    rcases List.mem_pair.mp hcm with rfl | rfl
    · exact ⟨haddr, rfl, fun _ => rfl⟩
    · refine ⟨?_, ?_, nofun⟩
      · show (b.addr + 20 + 44) % 64 = 0
        omega
      · show (b.size - 44 - 20) % 64 = 44
        omega
  · next hcuts =>
    have hcut : ¬ 44 + 20 + 1 ≤ b.size := hcuts
    have hle : 44 ≤ b.size := hfits.2
    have heq : b.size = 44 := by omega
    rw [List.mem_singleton.mp hcm]
    exact ⟨haddr, hb.size, fun _ => heq⟩

omit hfits in
/-- Where a `prev` word leads to behind a split. -/
theorem Cells.leads_allocated (hv : Leads h (pre ++ ([b] ++ post)) frames e v) :
    Leads (allocated h b taskSize) (pre ++ (b.taken taskSize ++ post)) frames e v := by
  have hs := hc.shape
  have hb : b ∈ pre ++ ([b] ++ post) := List.mem_append_right _ (List.mem_cons_self ..)
  have hgrid := hc.grid b hb
  have hhead : ∃ c ∈ b.taken taskSize, c.addr = b.addr := by
    unfold Block.taken
    split <;> exact ⟨_, List.mem_cons_self .., rfl⟩
  refine hv.mono (Finset.Subset.refl _) (fun a ha => ha.taken) fun hv64 hin hok =>
    hok.mono (fun a ha => ha.taken) ?_ ?_
  · rintro c hcm rfl
    by_cases hcb : c = b
    · obtain ⟨d, hd, haddr⟩ := hhead
      exact .inl ⟨d, List.mem_append_right _ (List.mem_append_left _ hd), by rw [haddr, hcb]⟩
    · exact .inl ⟨c, mem_middle (mem_others hcm hcb) _, rfl⟩
  · intro hnone
    by_cases hnew : b.Cuts taskSize ∧ (b.rest taskSize).addr = v
    · -- here a block begins again
      left
      refine .inl ⟨b.rest taskSize, List.mem_append_right _ (List.mem_append_left _ ?_), hnew.2⟩
      rw [Block.taken, if_pos hnew.1]
      exact List.mem_cons_of_mem _ (List.mem_cons_self ..)
    · right
      refine allocated_get_of_apart (hs.bounds hb).2 (hs.cell_le hin)
        (hgrid.apart hv64 (hnone b hb)) fun hcuts => ?_
      have haddr := hgrid.addr
      have hne : b.addr + 20 + 44 ≠ v := fun heq => hnew ⟨hcuts, heq⟩
      show b.addr + 20 + 44 + 20 ≤ v ∨ v + 20 ≤ b.addr + 20 + 44
      omega

/-- A block handed out for a `task_t` keeps the grid. -/
theorem Cells.allocated :
    Cells (allocated h b taskSize) (pre ++ (b.taken taskSize ++ post)) frames := by
  obtain ⟨hs, hgrid, hprevs⟩ := id hc
  have hb : b ∈ pre ++ ([b] ++ post) := List.mem_append_right _ (List.mem_cons_self ..)
  have hnext : first post 0 < 4294967296 := hs.header.next ▸ get_lt ..
  have hpos : 0 < taskSize := by decide
  obtain ⟨hprev, hprevRest⟩ :=
    allocated_prev hs.header hpos (hs.bounds hb).2 hnext
  have himp := fun e v (hv : Leads h _ frames e v) => hc.leads_allocated hv
  have hother : ∀ c ∈ pre ++ post, (Pelikan.allocated h b taskSize).get c.addr .prev =
      h.get c.addr .prev :=
    fun c hcm => allocated_get hs hb (mem_middle hcm _) (hs.ne_of_mem hcm) _
  refine ⟨hs.allocated (by decide), fun c hcm => ?_, ?_⟩
  · rcases List.mem_append.mp hcm with hcm | hcm
    · exact hgrid c (List.mem_append_left _ hcm)
    · rcases List.mem_append.mp hcm with hcm | hcm
      · exact hc.taken_grid hfits hcm
      · exact hgrid c (List.mem_append_right _ (List.mem_append_right _ hcm))
  · rw [prevs_append] at hprevs ⊢
    obtain ⟨hpre, hfirst, hpost⟩ := hprevs
    have hfirst := himp _ _ hfirst
    rw [← hprev] at hfirst
    have hpost := hpost.imp himp fun c hc => hother c (List.mem_append_right _ hc)
    refine ⟨hpre.imp himp fun c hc => hother c (List.mem_append_left _ hc), ?_⟩
    refine prevs_taken hfirst (fun hcuts => ?_) hpost
    -- the rest is told about the block in front of it
    have hmem : (⟨b.addr, taskSize, false⟩ : Block) ∈ pre ++ (b.taken taskSize ++ post) := by
      rw [Block.taken, if_pos hcuts]
      exact List.mem_append_right _ (List.mem_cons_self ..)
    rw [hprevRest hcuts]
    refine .inr ⟨(hgrid b hb).addr, hs.block_frame hb, ?_,
      fun a ha ha' => smooth_of_inside hmem ha ha', .inl ⟨_, hmem, rfl⟩⟩
    show b.addr < b.addr + 20 + 44
    omega

end Allocated

/-- A new frame, linked behind the last block. -/
theorem Cells.grow (hc : Cells h l frames) (hf : f ∉ frames) (hlt : f < maxFrames) (hpos : 0 < f)
    (hbits : ∀ g, bitAt bitmap g = (decide (g = f) || bitAt h.bitmap g)) :
    Cells (grownHeap h l f bitmap) (l ++ [frameBlock f]) (insert f frames) := by
  obtain ⟨hs, hgrid, hprevs⟩ := id hc
  have hsmooth : ∀ a, Smooth l a → Smooth (l ++ [frameBlock f]) a :=
    fun a ha => smooth_append.mpr (.inl ha)
  have himp : ∀ e v, Leads h l frames e v →
      Leads (grownHeap h l f bitmap) (l ++ [frameBlock f]) (insert f frames) e v := by
    intro e v hv
    refine hv.mono (Finset.subset_insert ..) hsmooth fun hv64 hin hok => hok.mono hsmooth ?_ ?_
    · exact fun c hcm haddr => .inl ⟨c, List.mem_append_left _ hcm, haddr⟩
    · intro hnone
      right
      have hframe : v / 4096 ≠ f := fun heq => hf (heq ▸ hin)
      have hapart : HeadersApart (f * 4096) v := by
        unfold HeadersApart blockSize
        omega
      refine (linkFrame_get (frame_le hlt) (hs.cell_le hin) hapart fun hne => ?_).trans rfl
      rcases last_cases l with rfl | ⟨z, hz, hlast⟩
      · exact absurd rfl hne
      · rw [hlast]
        exact .inr ⟨hs.header_le hz, (hgrid z hz).apart hv64 (hnone z hz)⟩
  -- the new block is the last one; its `prev` is the block that was last
  refine ⟨hs.grow hf hlt hpos hbits, fun c hcm => ?_, ?_⟩
  · rcases List.mem_append.mp hcm with hcm | hcm
    · exact hgrid c hcm
    · rw [List.mem_singleton.mp hcm]
      refine ⟨?_, ?_, nofun⟩
      · show f * 4096 % 64 = 0
        omega
      · show (4096 - 20) % 64 = 44
        decide
  · have hprev : (grownHeap h l f bitmap).get (f * 4096) .prev = last l 0 :=
      (hs.linkFrame_header hf hlt).2
    rw [prevs_append]
    refine ⟨hprevs.imp himp fun c hcm => hs.linkFrame_get hf hlt hcm fun _ => nofun, ?_, trivial⟩
    show Leads _ _ _ _ ((grownHeap h l f bitmap).get (f * 4096) .prev)
    rw [hprev]
    rcases List.eq_nil_or_concat l with rfl | ⟨l', z, rfl⟩
    · exact .inl rfl
    · rw [List.concat_eq_append] at hs hgrid hsmooth ⊢
      have hz : z ∈ l' ++ [z] := List.mem_append_right _ (List.mem_cons_self ..)
      have hzpos := z.stop_pos
      rw [last_append, stopOf_append]
      refine .inr ⟨(hgrid z hz).addr, Finset.mem_insert_of_mem (hs.block_frame hz), ?_, ?_,
        .inl ⟨z, List.mem_append_left _ hz, rfl⟩⟩
      · show z.addr < z.stop
        omega
      · exact fun a ha ha' => hsmooth a (smooth_of_inside hz ha ha')

/-! ## The call -/

/-- The block that serves the request is the only new one in use. -/
theorem inUse_taken (hb : b.free = true) :
    InUse (pre ++ (b.taken size ++ post)) q ↔
      q = b.addr + blockSize ∨ InUse (pre ++ ([b] ++ post)) q := by
  have htaken : InUse (b.taken size) q ↔ q = b.addr + blockSize := by
    unfold Block.taken InUse
    split <;> simp [Block.rest]
  rw [inUse_middle hb, inUse_append, inUse_append, inUse_append, htaken]
  exact or_left_comm

/-- A free block is in use by nobody. -/
theorem Shape.not_inUse (hs : Shape h l frames) (hb : b ∈ l) (hfree : b.free = true) :
    ¬ InUse l (b.addr + blockSize) := by
  rintro ⟨c, hc, hused, heq⟩
  have hbc := hs.eq_of_addr hb hc (by omega)
  rw [← hbc, hfree] at hused
  cases hused

/-- What `kmalloc` of a task does: one more block is in use, and the heap may have one more
frame, which was free. -/
structure Handed (h : Heap) (l : List Block) (frames : Finset Nat) (p : Nat) (h' : Heap)
    (l' : List Block) (frames' : Finset Nat) : Prop where
  cells : Cells h' l' frames'
  ne_zero : p ≠ 0
  fresh : ¬ InUse l p
  inUse : ∀ q, InUse l' q ↔ q = p ∨ InUse l q
  subset : frames ⊆ frames'
  free : ∀ f ∈ frames', f ∉ frames → bitAt h.bitmap f = false
  bits : ∀ g, bitAt h'.bitmap g = true ↔ bitAt h.bitmap g = true ∨ g ∈ frames'
  kept : Kept h l h'

/-- `kmalloc` of a `task_t`, with a new frame when none fits. -/
theorem Cells.kmalloc (hc : Cells h l frames) (hleft : frameLeft h.bitmap = true)
    (hcall : Yields (kmalloc h taskSize) (p, h')) :
    ∃ l' frames', Handed h l frames p h' l' frames' := by
  have hs := hc.shape
  cases kmalloc_served hs hleft hcall with
  | ignored hsize => exact absurd hsize (by decide)
  | @fit pre post b hl hpos hsize hpre hfits =>
    subst hl
    -- a block of the heap fits, and no frame is taken
    have hb : b ∈ pre ++ ([b] ++ post) := List.mem_append_right _ (List.mem_cons_self ..)
    refine ⟨_, frames, hc.allocated hfits, ?_, hs.not_inUse hb hfits.1,
      fun q => inUse_taken hfits.1, Finset.Subset.refl _, fun f hf hf' => absurd hf hf',
      fun g => ?_, hc.kept fun c hcm hused => payloadKept_allocated hs hb hcm ?_⟩
    · unfold blockSize
      omega
    · rw [allocated_bitmap]
      exact ⟨.inl, fun hg => hg.elim id fun hg => (hs.used g hg).2.2⟩
    · rintro rfl
      exact absurd (hused.symm.trans hfits.1) nofun
  | @grow f bitmap hnone hpos hsize hf hlt hfpos hfree hbits =>
    -- the heap grows by a frame, and the new block fits
    have hgrown : Cells (grownHeap h l f bitmap) (l ++ ([frameBlock f] ++ [])) (insert f frames) :=
      hc.grow hf hlt hfpos hbits
    have hmem : frameBlock f ∈ l ++ ([frameBlock f] ++ []) :=
      List.mem_append_right _ (List.mem_cons_self ..)
    have hold : ∀ q, InUse (l ++ ([frameBlock f] ++ [])) q ↔ InUse l q := fun q => by
      rw [inUse_middle (b := frameBlock f) rfl, List.append_nil]
    have hfits : (frameBlock f).Fits taskSize := frameBlock_fits hsize
    refine ⟨_, _, hgrown.allocated hfits, ?_, ?_, fun q => ?_, Finset.subset_insert .., ?_,
      fun g => ?_, hc.kept fun c hcm hused => (payloadKept_grow hs hf hlt hcm).trans
        (payloadKept_allocated hgrown.shape hmem (List.mem_append_left _ hcm) ?_)⟩
    · unfold blockSize
      omega
    · rw [← hold]
      exact hgrown.shape.not_inUse hmem rfl
    · rw [inUse_taken rfl, hold]
    · intro g hg hg'
      rw [(Finset.mem_insert.mp hg).resolve_right hg', hfree]
    · rw [allocated_bitmap]
      show bitAt (linkFrame _ _ _).bitmap g = true ↔ _
      rw [linkFrame_bitmap, hbits, Bool.or_eq_true, decide_eq_true_eq, Finset.mem_insert]
      -- the bitmap has one frame more, the one that the heap took
      constructor
      · rintro (hg | hg)
        · exact .inr (.inl hg)
        · exact .inl hg
      · rintro (hg | hg | hg)
        · exact .inr hg
        · exact .inl hg
        · exact .inr (hs.used g hg).2.2
    · rintro rfl
      exact absurd hused nofun

end

end Pelikan

end SystemsProjects

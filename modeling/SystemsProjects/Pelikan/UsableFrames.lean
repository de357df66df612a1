import SystemsProjects.Pelikan.PmmInit

/-!
# The frames that `pmm_init` leaves free

What the bitmap says about each frame after `pmm_init`, and how it compares with the memory map.
The first page of an area is freed although the area may begin in the middle of it, and the areas
of another type are never looked at again: they stay in use only as far as no available area
covers their frames.

- `pmmInit_bits`: the frames that are free afterwards, as the code computes them.
- `UsableFrame`: the frames that ought to be free, by their bytes.
- `FramesSeparate`: the maps, and places of the kernel, for which the two are the same
  (`pmmInit_usable_iff`).

The first half describes the call by bits: each loop gives one value to the frames that it comes
to, and the bit of a frame is decided by the last loop that comes to it. The second half
compares this with the bytes of the map: what `FramesSeparate` rules out are the frames that the
two see differently, where an area begins inside of a page, where areas of two types meet, and
where the kernel's ends are rounded.
-/

namespace SystemsProjects

namespace Pelikan

open ByteMemory

namespace MmapEntry

/-- The address is one of the area. -/
def Covers (e : MmapEntry) (x : Nat) : Prop := e.addr ≤ x ∧ x < e.addr + e.len

/-- All 4096 bytes of the frame lie in the area. -/
def Contains (e : MmapEntry) (f : Nat) : Prop := ∀ x, x / 4096 = f → e.Covers x

/-- Some byte of the frame lies in the area. -/
def Meets (e : MmapEntry) (f : Nat) : Prop := ∃ x, x / 4096 = f ∧ e.Covers x

/-- The loop over the area comes to the frame. -/
def Clears (e : MmapEntry) (f : Nat) : Prop := e.type = 1 ∧ e.startFrame ≤ f ∧ f < e.endFrame

end MmapEntry

/-- The last loop of `pmm_init` comes to the frame. -/
def KernelFrame (kernelStart kernelEnd f : Nat) : Prop :=
  kernelStart / 4096 ≤ f ∧ f < (kernelEnd + 4095) % 4294967296 / 4096

/-- Some byte of the frame lies in the kernel. -/
def MeetsKernel (kernelStart kernelEnd f : Nat) : Prop :=
  ∃ x, x / 4096 = f ∧ kernelStart ≤ x ∧ x < kernelEnd

/-- The frames that ought to be free: inside one available area, with no byte in an area of
another type, above the first megabyte and outside the kernel. -/
structure UsableFrame (es : List MmapEntry) (kernelStart kernelEnd f : Nat) : Prop where
  contained : ∃ e ∈ es, e.type = 1 ∧ e.Contains f
  unreserved : ∀ e ∈ es, e.type ≠ 1 → ¬ e.Meets f
  above : 256 ≤ f
  outside : ¬ MeetsKernel kernelStart kernelEnd f

/-- What a map and a kernel must be like for `pmm_init` to free the usable frames alone. -/
structure FramesSeparate (es : List MmapEntry) (kernelStart kernelEnd : Nat) : Prop where
  /-- The kernel's frames are frames of the bitmap. -/
  inside : FramesInside (kernelStart / 4096) ((kernelEnd + 4095) % 4294967296 / 4096)
  /-- Where an available area begins inside a page that is freed, another one has it whole. -/
  whole : ∀ e ∈ es, e.addr % 4096 ≠ 0 → e.Clears (e.addr / 4096) → 256 ≤ e.addr / 4096 →
    ¬ KernelFrame kernelStart kernelEnd (e.addr / 4096) →
    ∃ e' ∈ es, e'.type = 1 ∧ e'.Contains (e.addr / 4096)
  /-- No area of another type reaches into an available frame. -/
  unreserved : ∀ e ∈ es, e.type ≠ 1 → ∀ e' ∈ es, e'.type = 1 → ∀ f, 256 ≤ f →
    ¬ KernelFrame kernelStart kernelEnd f → e'.Contains f → ¬ e.Meets f
  /-- Among the available frames, rounding the kernel's ends to pages adds and loses none. -/
  rounded : ∀ f, 256 ≤ f → (∃ e ∈ es, e.type = 1 ∧ e.Contains f) →
    (∀ e ∈ es, e.type ≠ 1 → ¬ e.Meets f) →
    (KernelFrame kernelStart kernelEnd f ↔ MeetsKernel kernelStart kernelEnd f)

instance (kernelStart kernelEnd f : Nat) : Decidable (KernelFrame kernelStart kernelEnd f) :=
  inferInstanceAs (Decidable (_ ∧ _))

/-! ## The bits that a loop leaves -/

section

variable {op : Bitmap → Nat → Except PmmStop Bitmap} {v : Bool} {b : Bitmap} {e : MmapEntry}
  {k f stop current kernelStart kernelEnd : Nat} {mem : ByteMemory} {es : List MmapEntry}
  {mboot : MultibootInfo}

/-- The operation gives one bit a value. -/
def WritesBit (op : Bitmap → Nat → Except PmmStop Bitmap) (v : Bool) : Prop :=
  ∀ b f, f < maxFrames → ∃ b', op b f = .ok b' ∧
    ∀ g, bitAt b' g = if g = f then v else bitAt b g

theorem setFrame_writes : WritesBit setFrame true := by
  intro b f hf
  obtain ⟨b', hset, hbits⟩ := setFrame_eq (b := b) hf
  refine ⟨b', hset, fun g => ?_⟩
  rw [hbits]
  by_cases hg : g = f
  · simp [hg]
  · simp [hg]

theorem clearFrame_writes : WritesBit clearFrame false := by
  intro b f hf
  obtain ⟨b', hclear, hbits⟩ := clearFrame_eq (b := b) hf
  refine ⟨b', hclear, fun g => ?_⟩
  rw [hbits]
  by_cases hg : g = f
  · simp [hg]
  · simp [hg]

/-- The loop gives the value to the frames that it comes to. -/
theorem eachFrame_bits (hop : WritesBit op v) (hin : FramesInside f (f + k)) :
    ∃ b', eachFrame op b k f = .ok b' ∧
      ∀ g, bitAt b' g = if f ≤ g ∧ g < f + k then v else bitAt b g := by
  induction k generalizing b f with
  | zero =>
    refine ⟨b, rfl, fun g => ?_⟩
    rw [if_neg]
    omega
  | succ k ih =>
    have hlt : f + (k + 1) ≤ maxFrames := by
      rcases hin with h | h <;> omega
    obtain ⟨b₁, hstep, hbit⟩ := hop b f (by omega)
    obtain ⟨b', hrest, hbits⟩ := ih (b := b₁) (f := f + 1) (.inr (by omega))
    refine ⟨b', by rw [eachFrame, hstep]; exact hrest, fun g => ?_⟩
    rw [hbits, hbit]
    -- the first frame is written by this round, the others by the rest
    by_cases hg : g = f
    · rw [if_neg (by omega), if_pos hg, if_pos (by omega)]
    · rw [if_neg hg]
      congr 1
      apply propext
      omega

/-- The same for a loop that is given by its two ends. -/
theorem eachFrame_range_bits (hop : WritesBit op v) {startFrame endFrame : Nat}
    (hin : FramesInside startFrame endFrame) :
    ∃ b', eachFrame op b (endFrame - startFrame) startFrame = .ok b' ∧
      ∀ g, bitAt b' g = if startFrame ≤ g ∧ g < endFrame then v else bitAt b g := by
  have hin' : FramesInside startFrame (startFrame + (endFrame - startFrame)) := by
    unfold FramesInside at hin ⊢
    omega
  obtain ⟨b', heach, hbits⟩ := eachFrame_bits (b := b) hop hin'
  refine ⟨b', heach, fun g => ?_⟩
  rw [hbits]
  congr 1
  apply propext
  omega

/-- An area of the map clears the frames it clears. -/
theorem freeArea_bits (hin : e.Inside) :
    ∃ b', freeArea b e = .ok b' ∧
      ∀ g, bitAt b' g = false ↔ e.Clears g ∨ bitAt b g = false := by
  rw [freeArea]
  by_cases htype : e.type = 1
  · rw [if_pos htype]
    obtain ⟨b', heach, hbits⟩ := eachFrame_range_bits (b := b) clearFrame_writes (hin htype)
    refine ⟨b', heach, fun g => ?_⟩
    rw [hbits]
    by_cases hg : e.startFrame ≤ g ∧ g < e.endFrame
    · simp [hg, MmapEntry.Clears, htype]
    · simp [hg, MmapEntry.Clears]
  · rw [if_neg htype]
    exact ⟨b, rfl, fun g => by simp [MmapEntry.Clears, htype]⟩

theorem mmapLoop_bits (hwalk : MmapWalk mem stop current es) (hin : ∀ e ∈ es, e.Inside) :
    ∃ b', mmapLoop mem stop (es.length + 1) b current = .done b' ∧
      ∀ g, bitAt b' g = false ↔ (∃ e ∈ es, e.Clears g) ∨ bitAt b g = false := by
  induction hwalk generalizing b with
  | done h => exact ⟨b, if_neg (Nat.not_lt.mpr h), fun g => by simp⟩
  | @entry current es h hrest ih =>
    rw [List.length_cons, mmapLoop, if_pos h]
    obtain ⟨b₁, hfree, hbit⟩ := freeArea_bits (b := b) (hin _ (List.mem_cons_self ..))
    obtain ⟨b', hloop, hbits⟩ := ih (b := b₁) fun e he => hin e (List.mem_cons_of_mem _ he)
    refine ⟨b', by simp only [hfree]; exact hloop, fun g => ?_⟩
    rw [hbits, hbit]
    simp only [List.exists_mem_cons_iff]
    rw [or_left_comm, or_assoc]

/-- Setting the bits again keeps a frame only above the first megabyte and off the kernel. -/
theorem protectFrames_bits
    (hin : FramesInside (kernelStart / 4096) ((kernelEnd + 4095) % 4294967296 / 4096)) :
    ∃ b', protectFrames b kernelStart kernelEnd = .ok b' ∧
      ∀ g, bitAt b' g = false ↔
        bitAt b g = false ∧ 256 ≤ g ∧ ¬ KernelFrame kernelStart kernelEnd g := by
  obtain ⟨b₁, hmega, hbit⟩ :=
    eachFrame_bits (b := b) setFrame_writes (f := 0) (k := 256) (.inr (by decide))
  obtain ⟨b', hkernel, hbits⟩ := eachFrame_range_bits (b := b₁) setFrame_writes hin
  refine ⟨b', by simp only [protectFrames, hmega, hkernel], fun g => ?_⟩
  rw [hbits, hbit]
  change (if KernelFrame kernelStart kernelEnd g then _ else _) = false ↔ _
  by_cases hk : KernelFrame kernelStart kernelEnd g
  · simp [hk]
  · by_cases hg : g < 256
    · simp [hk, hg]
    · simp [hk, hg, Nat.le_of_not_lt hg]

/-! ## The call -/

theorem bitAt_filled {b : Bitmap} {f : Nat} (hf : f < maxFrames) :
    bitAt (fun i => if i < bitmapSize then 0xFF else b i) f = true := by
  have hones : ∀ k < 8, (0xFF : BitVec 8).getLsbD k = true := by decide
  rw [bitAt, if_pos (byte_lt hf)]
  exact hones _ (Nat.mod_lt _ (by decide))

/-- The frames that `pmm_init` leaves free. -/
theorem pmmInit_bits
    (hwalk : MmapWalk mem ((mboot.mmapAddr + mboot.mmapLength) % 4294967296) mboot.mmapAddr es)
    (hin : ∀ e ∈ es, e.Inside)
    (hkernel : FramesInside (kernelStart / 4096) ((kernelEnd + 4095) % 4294967296 / 4096)) :
    ∃ b', Yields (pmmInit mem mboot kernelStart kernelEnd b) b' ∧
      ∀ g < maxFrames, bitAt b' g = false ↔
        (∃ e ∈ es, e.Clears g) ∧ 256 ≤ g ∧ ¬ KernelFrame kernelStart kernelEnd g := by
  obtain ⟨b₁, hloop, hbit⟩ :=
    mmapLoop_bits (b := fun i => if i < bitmapSize then 0xFF else b i) hwalk hin
  obtain ⟨b', hprotect, hbits⟩ := protectFrames_bits (b := b₁) hkernel
  refine ⟨b', ⟨es.length + 1, by simp only [pmmInit, hloop, hprotect]⟩, fun g hg => ?_⟩
  rw [hbits, hbit, bitAt_filled hg]
  simp

/-- The first megabyte stays in use, whatever the map says. -/
theorem pmmInit_first_megabyte
    (hwalk : MmapWalk mem ((mboot.mmapAddr + mboot.mmapLength) % 4294967296) mboot.mmapAddr es)
    (hin : ∀ e ∈ es, e.Inside)
    (hkernel : FramesInside (kernelStart / 4096) ((kernelEnd + 4095) % 4294967296 / 4096))
    {b' : Bitmap} (hyields : Yields (pmmInit mem mboot kernelStart kernelEnd b) b') {g : Nat}
    (hg : g < 256) : bitAt b' g = true := by
  obtain ⟨b₁, hyields₁, hbits⟩ := pmmInit_bits (b := b) hwalk hin hkernel
  obtain rfl := hyields.unique (pmmInit_mono mem mboot kernelStart kernelEnd b) hyields₁
  have hlt : g < maxFrames := by
    unfold maxFrames
    omega
  by_contra hfree
  rw [Bool.not_eq_true, hbits g hlt] at hfree
  omega

end

/-! ## What the map says -/

namespace MmapEntry

variable {e : MmapEntry} {f : Nat}

/-- An area that ends at 128 MiB or below has no address or frame number that is cut down. -/
theorem frames_of_le (hend : e.addr + e.len ≤ 0x8000000) :
    e.startFrame = e.addr / 4096 ∧ e.endFrame = (e.addr + e.len) / 4096 := by
  constructor
  · unfold startFrame
    omega
  · unfold endFrame
    omega

/-- An area that ends below 128 MiB is inside. -/
theorem inside_of_le (hend : e.type = 1 → e.addr + e.len ≤ 0x8000000) : e.Inside := by
  intro htype
  have hle := hend htype
  rw [(frames_of_le hle).1, (frames_of_le hle).2]
  right
  unfold maxFrames
  omega

theorem contains_iff : e.Contains f ↔ e.addr ≤ 4096 * f ∧ 4096 * (f + 1) ≤ e.addr + e.len := by
  constructor
  · intro h
    -- the first and the last byte of the frame
    have hfirst := h (4096 * f) (by omega)
    have hlast := h (4096 * f + 4095) (by omega)
    unfold Covers at hfirst hlast
    omega
  · intro h x hx
    unfold Covers
    omega

/-- The loop over an available area comes to the frames that it contains, and to the one that it
begins in. -/
theorem clears_iff (htype : e.type = 1) (hend : e.addr + e.len ≤ 0x8000000) :
    e.Clears f ↔
      e.Contains f ∨ (f = e.addr / 4096 ∧ e.addr % 4096 ≠ 0 ∧ f < (e.addr + e.len) / 4096) := by
  rw [contains_iff, Clears, (frames_of_le hend).1, (frames_of_le hend).2]
  simp only [htype, true_and]
  omega

/-- A frame that is cleared is one of the bitmap. -/
theorem Clears.lt_maxFrames (h : e.Clears f) (hend : e.addr + e.len ≤ 0x8000000) :
    f < maxFrames := by
  obtain ⟨-, -, hlt⟩ := h
  rw [(frames_of_le hend).2] at hlt
  unfold maxFrames
  omega

end MmapEntry

/-- Rounding is right for every kernel that is not empty and ends below the last page. -/
theorem kernelFrame_iff {kernelStart kernelEnd f : Nat} (hlt : kernelStart < kernelEnd)
    (hend : kernelEnd + 4095 < 4294967296) :
    KernelFrame kernelStart kernelEnd f ↔ MeetsKernel kernelStart kernelEnd f := by
  unfold KernelFrame MeetsKernel
  rw [Nat.mod_eq_of_lt hend]
  constructor
  · rintro ⟨hstart, hf⟩
    exact ⟨max kernelStart (4096 * f), by omega, by omega, by omega⟩
  · rintro ⟨x, hx, hstart, hx'⟩
    omega

section

variable {mem : ByteMemory} {mboot : MultibootInfo} {es : List MmapEntry} {b : Bitmap}
  {kernelStart kernelEnd f : Nat}

/-- What the code frees is what ought to be free, on the maps that keep their areas apart. -/
theorem FramesSeparate.usable_iff (h : FramesSeparate es kernelStart kernelEnd)
    (hends : ∀ e ∈ es, e.type = 1 → e.addr + e.len ≤ 0x8000000) :
    ((∃ e ∈ es, e.Clears f) ∧ 256 ≤ f ∧ ¬ KernelFrame kernelStart kernelEnd f) ↔
      UsableFrame es kernelStart kernelEnd f := by
  constructor
  · rintro ⟨⟨e, he, hclears⟩, habove, hkernel⟩
    have hcontained : ∃ e ∈ es, e.type = 1 ∧ e.Contains f := by
      rcases (MmapEntry.clears_iff hclears.1 (hends e he hclears.1)).mp hclears with
        hcontains | ⟨rfl, hmid, -⟩
      · exact ⟨e, he, hclears.1, hcontains⟩
      · exact h.whole e he hmid hclears habove hkernel
    obtain ⟨e', he', htype', hcontains⟩ := hcontained
    have hother : ∀ e ∈ es, e.type ≠ 1 → ¬ e.Meets f := fun e he htype =>
      h.unreserved e he htype e' he' htype' f habove hkernel hcontains
    refine ⟨⟨e', he', htype', hcontains⟩, hother, habove, ?_⟩
    rwa [← h.rounded f habove ⟨e', he', htype', hcontains⟩ hother]
  · rintro ⟨⟨e, he, htype, hcontains⟩, hother, habove, houtside⟩
    refine ⟨⟨e, he, ?_⟩, habove, ?_⟩
    · exact (MmapEntry.clears_iff htype (hends e he htype)).mpr (.inl hcontains)
    · rwa [h.rounded f habove ⟨e, he, htype, hcontains⟩ hother]

/-- And on no others. -/
theorem FramesSeparate.of_usable
    (hinside : FramesInside (kernelStart / 4096) ((kernelEnd + 4095) % 4294967296 / 4096))
    (hends : ∀ e ∈ es, e.type = 1 → e.addr + e.len ≤ 0x8000000)
    (h : ∀ f < maxFrames, ((∃ e ∈ es, e.Clears f) ∧ 256 ≤ f ∧
      ¬ KernelFrame kernelStart kernelEnd f) ↔ UsableFrame es kernelStart kernelEnd f) :
    FramesSeparate es kernelStart kernelEnd := by
  have husable : ∀ f, ∀ e ∈ es, e.Clears f → 256 ≤ f → ¬ KernelFrame kernelStart kernelEnd f →
      UsableFrame es kernelStart kernelEnd f := fun f e he hclears habove hkernel =>
    (h f (hclears.lt_maxFrames (hends e he hclears.1))).mp ⟨⟨e, he, hclears⟩, habove, hkernel⟩
  have hclears : ∀ f, ∀ e ∈ es, e.type = 1 → e.Contains f → e.Clears f :=
    fun f e he htype hcontains =>
      (MmapEntry.clears_iff htype (hends e he htype)).mpr (.inl hcontains)
  refine ⟨hinside, ?_, ?_, ?_⟩
  · intro e he _ hfirst habove hkernel
    exact (husable _ e he hfirst habove hkernel).contained
  · intro e he htype e' he' htype' f habove hkernel hcontains
    have hkept := husable f e' he' (hclears f e' he' htype' hcontains) habove hkernel
    exact hkept.unreserved e he htype
  · rintro f habove ⟨e, he, htype, hcontains⟩ hother
    have hfree := hclears f e he htype hcontains
    constructor
    · intro hkernel
      by_contra houtside
      -- the frame would be usable, so it would be free
      exact ((h f (hfree.lt_maxFrames (hends e he htype))).mpr
        ⟨⟨e, he, htype, hcontains⟩, hother, habove, houtside⟩).2.2 hkernel
    · intro hmeets
      by_contra hkernel
      exact (husable f e he hfree habove hkernel).outside hmeets

/-- A `pmm_init` that leaves the usable frames free, and no others, had a map that keeps them
apart. -/
theorem FramesSeparate.of_pmmInit
    (hwalk : MmapWalk mem ((mboot.mmapAddr + mboot.mmapLength) % 4294967296) mboot.mmapAddr es)
    (hends : ∀ e ∈ es, e.type = 1 → e.addr + e.len ≤ 0x8000000) {b' : Bitmap}
    (hyields : Yields (pmmInit mem mboot kernelStart kernelEnd b) b')
    (hfree : ∀ f < maxFrames, bitAt b' f = false ↔ UsableFrame es kernelStart kernelEnd f) :
    FramesSeparate es kernelStart kernelEnd := by
  have hmono := pmmInit_mono mem mboot kernelStart kernelEnd b
  have hinside : FramesInside (kernelStart / 4096) ((kernelEnd + 4095) % 4294967296 / 4096) := by
    by_contra hout
    obtain ⟨n, i, hstop⟩ := pmmInit_stops (b := b) hwalk fun h => hout h.2
    exact hyields.not_stop hmono hstop
  obtain ⟨b₁, hyields₁, hbits⟩ :=
    pmmInit_bits (b := b) hwalk (fun e he => MmapEntry.inside_of_le (hends e he)) hinside
  obtain rfl := hyields.unique hmono hyields₁
  exact .of_usable hinside hends fun f hf => (hbits f hf).symm.trans (hfree f hf)

/-- `pmm_init` returns with the usable frames free, and no others, exactly for the maps and
kernels that keep their frames apart. -/
theorem pmmInit_usable_iff
    (hwalk : MmapWalk mem ((mboot.mmapAddr + mboot.mmapLength) % 4294967296) mboot.mmapAddr es)
    (hends : ∀ e ∈ es, e.type = 1 → e.addr + e.len ≤ 0x8000000) :
    (∃ b', Yields (pmmInit mem mboot kernelStart kernelEnd b) b' ∧
      ∀ f < maxFrames, bitAt b' f = false ↔ UsableFrame es kernelStart kernelEnd f) ↔
    FramesSeparate es kernelStart kernelEnd := by
  constructor
  · rintro ⟨b', hyields, hfree⟩
    exact .of_pmmInit hwalk hends hyields hfree
  · intro h
    obtain ⟨b', hyields, hbits⟩ :=
      pmmInit_bits (b := b) hwalk (fun e he => MmapEntry.inside_of_le (hends e he)) h.inside
    exact ⟨b', hyields, fun f hf => (hbits f hf).trans (h.usable_iff hends)⟩

end

/-- The 64 MiB from 1 MiB on, with the kernel at their beginning. -/
theorem pmmInit_usable_oneAreaMap :
    ∃ b', Yields (pmmInit (oneAreaMap 0x4000000) oneAreaInfo 0x100000 0x110000 fun _ => 0) b' ∧
      ∀ f < maxFrames, bitAt b' f = false ↔
        UsableFrame [⟨20, 0x100000, 0x4000000, 1⟩] 0x100000 0x110000 f := by
  have hentry : mmapEntryAt (oneAreaMap 0x4000000) 4096 = ⟨20, 0x100000, 0x4000000, 1⟩ := by
    decide +kernel
  have hwalk : MmapWalk (oneAreaMap 0x4000000)
      ((oneAreaInfo.mmapAddr + oneAreaInfo.mmapLength) % 4294967296) oneAreaInfo.mmapAddr
      [⟨20, 0x100000, 0x4000000, 1⟩] := by
    rw [← hentry]
    refine .entry (by decide) (.done ?_)
    decide +kernel
  refine (pmmInit_usable_iff hwalk (by decide)).mpr ⟨by decide, ?_, ?_, ?_⟩
  · intro e he hmid
    obtain rfl := List.mem_singleton.mp he
    exact absurd rfl hmid
  · intro e he htype
    obtain rfl := List.mem_singleton.mp he
    exact absurd rfl htype
  · intro f _ _ _
    exact kernelFrame_iff (by decide) (by decide)

/-- The same map with an area that begins in the middle of frame 256. -/
def midPageMap : ByteMemory := setWord (oneAreaMap 0x100000) 4100 0x100800

/-- Frame 256 is freed, but its first half belongs to no area. -/
theorem pmmInit_frees_unusable :
    ¬ ∃ b', Yields (pmmInit midPageMap oneAreaInfo 0x180000 0x190000 fun _ => 0) b' ∧
      ∀ f < maxFrames, bitAt b' f = false ↔
        UsableFrame [⟨20, 0x100800, 0x100000, 1⟩] 0x180000 0x190000 f := by
  rintro ⟨b', hyields, hfree⟩
  have hentry : mmapEntryAt midPageMap 4096 = ⟨20, 0x100800, 0x100000, 1⟩ := by
    decide +kernel
  have hwalk : MmapWalk midPageMap
      ((oneAreaInfo.mmapAddr + oneAreaInfo.mmapLength) % 4294967296) oneAreaInfo.mmapAddr
      [⟨20, 0x100800, 0x100000, 1⟩] := by
    rw [← hentry]
    refine .entry (by decide) (.done ?_)
    decide +kernel
  have hsep := FramesSeparate.of_pmmInit hwalk (by decide) hyields hfree
  obtain ⟨e, he, -, hcontains⟩ := hsep.whole _ (List.mem_singleton_self _) (by decide)
    (by unfold MmapEntry.Clears; decide) (by decide) (by decide)
  obtain rfl := List.mem_singleton.mp he
  rw [MmapEntry.contains_iff] at hcontains
  exact absurd hcontains.1 (by decide)

end Pelikan

end SystemsProjects

import SystemsProjects.Lib.ByteMemory
import SystemsProjects.Lib.Fuel
import SystemsProjects.Pelikan.PmmOwnership

/-!
# The memory map (`pmm_init`)

`pmm_init` walks over the memory map that the boot loader has left, clears the bits of the frames
of every available area, and sets those of the first megabyte and of the kernel again. An area is
given by 64-bit numbers, the frame numbers are cut down to 32 bits, and the bitmap has room for
32768 frames.

- `MmapWalk`: the entries that the walk comes to.
- `pmmInit_yields`, `pmmInit_stops`: with areas that end inside the bitmap the call returns, and
  the first one that does not takes it out of bounds.
- `pmmInit_inside_iff`: when all accesses are inside the bitmap.

The three loops are of one form, from a frame up to another, and stay inside exactly when their
last frame does (`eachFrame_ok`, `eachFrame_stop`). The walk is over memory that nobody has
checked: its entries have the sizes that they say, so it may go on for ever, and `MmapWalk` is
the condition that it ends.
-/

namespace SystemsProjects

namespace Pelikan

open ByteMemory

/-- The fields of `struct multiboot_info` that `pmm_init` reads. -/
structure MultibootInfo where
  mmapLength : Nat
  mmapAddr : Nat

/-- `struct multiboot_mmap_entry` -/
structure MmapEntry where
  size : Nat
  addr : Nat
  len : Nat
  type : Nat
  deriving DecidableEq

/-- The entry at an address. -/
def mmapEntryAt (mem : ByteMemory) (current : Nat) : MmapEntry where
  size := word mem current
  addr := word mem (current + 4) + 4294967296 * word mem (current + 8)
  len := word mem (current + 12) + 4294967296 * word mem (current + 16)
  type := word mem (current + 20)

namespace MmapEntry

/-- `start_frame`, a `uint32_t`. -/
def startFrame (e : MmapEntry) : Nat := e.addr / 4096 % 4294967296

/-- `end_frame`, a `uint32_t`; the sum of address and length is a `uint64_t`. -/
def endFrame (e : MmapEntry) : Nat :=
  (e.addr + e.len) % 18446744073709551616 / 4096 % 4294967296

end MmapEntry

/-- A loop over the `k` frames from `f` on. -/
def eachFrame (op : Bitmap → Nat → Except PmmStop Bitmap) (b : Bitmap) :
    Nat → Nat → Except PmmStop Bitmap
  | 0, _ => .ok b
  | k + 1, f =>
    match op b f with
    | .ok b => eachFrame op b k (f + 1)
    | .error e => .error e

/-- What the walk does at an entry. -/
def freeArea (b : Bitmap) (e : MmapEntry) : Except PmmStop Bitmap :=
  if e.type = 1 then eachFrame clearFrame b (e.endFrame - e.startFrame) e.startFrame
  else .ok b

/-- The walk over the map, up to the address `stop`. -/
def mmapLoop (mem : ByteMemory) (stop : Nat) : Nat → Bitmap → Nat → Fueled PmmStop Bitmap
  | 0, _, _ => .out
  | n + 1, b, current =>
    if current < stop then
      let entry := mmapEntryAt mem current
      match freeArea b entry with
      | .ok b => mmapLoop mem stop n b ((current + entry.size + 4) % 4294967296)
      | .error e => .stop e
    else .done b

/-- What `pmm_init` does behind the walk: the first megabyte, and the kernel. -/
def protectFrames (b : Bitmap) (kernelStart kernelEnd : Nat) : Except PmmStop Bitmap :=
  match eachFrame setFrame b 256 0 with
  | .ok b =>
    let startFrame := kernelStart / 4096
    let endFrame := (kernelEnd + 4095) % 4294967296 / 4096
    eachFrame setFrame b (endFrame - startFrame) startFrame
  | .error e => .error e

/-- `pmm_init`, where the linker has put the kernel between the two addresses. -/
def pmmInit (mem : ByteMemory) (mboot : MultibootInfo) (kernelStart kernelEnd : Nat) (b : Bitmap)
    (n : Nat) : Fueled PmmStop Bitmap :=
  let b : Bitmap := fun i => if i < bitmapSize then 0xFF else b i
  match mmapLoop mem ((mboot.mmapAddr + mboot.mmapLength) % 4294967296) n b mboot.mmapAddr with
  | .done b =>
    match protectFrames b kernelStart kernelEnd with
    | .ok b => .done b
    | .error e => .stop e
  | .stop e => .stop e
  | .out => .out

/-- The entries from an address on, up to the end of the map. -/
inductive MmapWalk (mem : ByteMemory) (stop : Nat) : Nat → List MmapEntry → Prop where
  | done {current : Nat} (h : stop ≤ current) : MmapWalk mem stop current []
  | entry {current : Nat} {es : List MmapEntry} (h : current < stop)
      (hrest : MmapWalk mem stop ((current + (mmapEntryAt mem current).size + 4) % 4294967296) es) :
      MmapWalk mem stop current (mmapEntryAt mem current :: es)

/-- The loop over these frames stays inside the bitmap. -/
def FramesInside (startFrame endFrame : Nat) : Prop :=
  endFrame ≤ startFrame ∨ endFrame ≤ maxFrames

/-- The area is not available, or its loop stays inside the bitmap. -/
def MmapEntry.Inside (e : MmapEntry) : Prop :=
  e.type = 1 → FramesInside e.startFrame e.endFrame

instance (startFrame endFrame : Nat) : Decidable (FramesInside startFrame endFrame) :=
  inferInstanceAs (Decidable (_ ∨ _))

instance (e : MmapEntry) : Decidable e.Inside := inferInstanceAs (Decidable (_ → _))

/-! ## One loop -/

section

variable {op : Bitmap → Nat → Except PmmStop Bitmap} {b : Bitmap} {k f i n : Nat}
  {mem : ByteMemory} {stop current kernelStart kernelEnd : Nat} {es : List MmapEntry}
  {mboot : MultibootInfo}

/-- An access that checks its index. -/
structure ChecksIndex (op : Bitmap → Nat → Except PmmStop Bitmap) : Prop where
  inside : ∀ b f, f < maxFrames → ∃ b', op b f = .ok b'
  outside : ∀ b f, maxFrames ≤ f → op b f = .error (.bitmapOutOfBounds (f / 8))

/-- A frame behind the last one has no byte in the bitmap. -/
theorem not_byte_lt (hf : maxFrames ≤ f) : ¬ f / 8 < bitmapSize := by
  unfold maxFrames at hf
  unfold bitmapSize
  omega

theorem setFrame_checks : ChecksIndex setFrame where
  inside b f hf := by
    obtain ⟨b', hset, -⟩ := setFrame_eq (b := b) hf
    exact ⟨b', hset⟩
  outside _ _ hf := if_neg (not_byte_lt hf)

theorem clearFrame_checks : ChecksIndex clearFrame where
  inside b f hf := by
    obtain ⟨b', hclear, -⟩ := clearFrame_eq (b := b) hf
    exact ⟨b', hclear⟩
  outside _ _ hf := if_neg (not_byte_lt hf)

/-- The loop goes through when its frames are inside. -/
theorem eachFrame_ok (hop : ChecksIndex op) (h : FramesInside f (f + k)) :
    ∃ b', eachFrame op b k f = .ok b' := by
  induction k generalizing b f with
  | zero => exact ⟨b, rfl⟩
  | succ k ih =>
    have hlt : f + (k + 1) ≤ maxFrames := by
      rcases h with h | h <;> omega
    obtain ⟨b₁, hstep⟩ := hop.inside b f (by omega)
    rw [eachFrame, hstep]
    exact ih (.inr (by omega))

theorem eachFrame_stop (hop : ChecksIndex op) (h : ¬ FramesInside f (f + k)) :
    ∃ i, bitmapSize ≤ i ∧ eachFrame op b k f = .error (.bitmapOutOfBounds i) := by
  induction k generalizing b f with
  | zero => exact absurd (.inl (Nat.le_refl f)) h
  | succ k ih =>
    have hmore : maxFrames < f + (k + 1) := by
      refine Nat.lt_of_not_le fun hle => h (.inr hle)
    rw [eachFrame]
    by_cases hf : f < maxFrames
    · obtain ⟨b₁, hstep⟩ := hop.inside b f hf
      rw [hstep]
      refine ih fun hin => ?_
      rcases hin with hin | hin <;> omega
    · rw [hop.outside b f (Nat.le_of_not_lt hf)]
      exact ⟨f / 8, Nat.le_of_not_lt (not_byte_lt (Nat.le_of_not_lt hf)), rfl⟩

/-- The loop from one frame up to another. -/
theorem eachFrame_range (hop : ChecksIndex op) (startFrame endFrame : Nat) :
    (FramesInside startFrame endFrame ∧
      ∃ b', eachFrame op b (endFrame - startFrame) startFrame = .ok b') ∨
    (¬ FramesInside startFrame endFrame ∧ ∃ i, bitmapSize ≤ i ∧
      eachFrame op b (endFrame - startFrame) startFrame = .error (.bitmapOutOfBounds i)) := by
  have hiff : FramesInside startFrame endFrame ↔
      FramesInside startFrame (startFrame + (endFrame - startFrame)) := by
    unfold FramesInside
    omega
  by_cases h : FramesInside startFrame endFrame
  · exact .inl ⟨h, eachFrame_ok hop (hiff.mp h)⟩
  · exact .inr ⟨h, eachFrame_stop hop fun hin => h (hiff.mpr hin)⟩

theorem freeArea_cases (b : Bitmap) (e : MmapEntry) :
    (e.Inside ∧ ∃ b', freeArea b e = .ok b') ∨
    (¬ e.Inside ∧ ∃ i, bitmapSize ≤ i ∧ freeArea b e = .error (.bitmapOutOfBounds i)) := by
  unfold freeArea
  by_cases htype : e.type = 1
  · rw [if_pos htype]
    rcases eachFrame_range clearFrame_checks e.startFrame e.endFrame with ⟨hin, hok⟩ | ⟨hout, hstop⟩
    · exact .inl ⟨fun _ => hin, hok⟩
    · exact .inr ⟨fun hin => hout (hin htype), hstop⟩
  · rw [if_neg htype]
    exact .inl ⟨fun h => absurd h htype, b, rfl⟩

/-! ## The walk -/

theorem mmapLoop_yields (hwalk : MmapWalk mem stop current es) (hin : ∀ e ∈ es, e.Inside) :
    ∃ b', mmapLoop mem stop (es.length + 1) b current = .done b' := by
  induction hwalk generalizing b with
  | done h => exact ⟨b, if_neg (Nat.not_lt.mpr h)⟩
  | @entry current es h hrest ih =>
    rw [List.length_cons, mmapLoop, if_pos h]
    rcases freeArea_cases b (mmapEntryAt mem current) with ⟨-, b₁, hfree⟩ | ⟨hout, -⟩
    · simp only [hfree]
      exact ih fun e he => hin e (List.mem_cons_of_mem _ he)
    · exact absurd (hin _ (List.mem_cons_self ..)) hout

/-- The walk stops at the first area that is not. -/
theorem mmapLoop_stops (hwalk : MmapWalk mem stop current es) (hout : ∃ e ∈ es, ¬ e.Inside) :
    ∃ i, bitmapSize ≤ i ∧
      mmapLoop mem stop (es.length + 1) b current = .stop (.bitmapOutOfBounds i) := by
  induction hwalk generalizing b with
  | done h =>
    obtain ⟨e, he, -⟩ := hout
    exact absurd he List.not_mem_nil
  | @entry current es h hrest ih =>
    rw [List.length_cons, mmapLoop, if_pos h]
    rcases freeArea_cases b (mmapEntryAt mem current) with ⟨hin, b₁, hfree⟩ | ⟨-, i, hi, hstop⟩
    · simp only [hfree]
      -- the first area is inside, so it is a later one that is not
      obtain ⟨e, he, hbad⟩ := hout
      rcases List.mem_cons.mp he with rfl | he
      · exact absurd hin hbad
      · exact ih ⟨e, he, hbad⟩
    · simp only [hstop]
      exact ⟨i, hi, rfl⟩

theorem mmapLoop_mono (mem : ByteMemory) (stop n : Nat) (b : Bitmap) (current : Nat) :
    Fueled.Approx (mmapLoop mem stop n b current) (mmapLoop mem stop (n + 1) b current) := by
  induction n generalizing b current with
  | zero => exact .out_left _
  | succ n ih =>
    rw [mmapLoop, mmapLoop]
    by_cases hlt : current < stop
    · rw [if_pos hlt, if_pos hlt]
      cases hfree : freeArea b (mmapEntryAt mem current) with
      | ok b₁ =>
        simp only [hfree]
        exact ih b₁ _
      | error e =>
        simp only [hfree]
        exact .refl _
    · rw [if_neg hlt, if_neg hlt]
      exact .refl _

/-! ## The call -/

theorem pmmInit_mono (mem : ByteMemory) (mboot : MultibootInfo) (kernelStart kernelEnd : Nat)
    (b : Bitmap) : FuelMono (pmmInit mem mboot kernelStart kernelEnd b) := by
  intro n
  have hloop := mmapLoop_mono mem ((mboot.mmapAddr + mboot.mmapLength) % 4294967296) n
    (fun i => if i < bitmapSize then 0xFF else b i) mboot.mmapAddr
  unfold pmmInit
  rcases hloop with hout | heq
  · simp only [hout]
    exact .out_left _
  · simp only [heq]
    exact .refl _

theorem protectFrames_cases (b : Bitmap) (kernelStart kernelEnd : Nat) :
    (FramesInside (kernelStart / 4096) ((kernelEnd + 4095) % 4294967296 / 4096) ∧
      ∃ b', protectFrames b kernelStart kernelEnd = .ok b') ∨
    (¬ FramesInside (kernelStart / 4096) ((kernelEnd + 4095) % 4294967296 / 4096) ∧
      ∃ i, protectFrames b kernelStart kernelEnd = .error (.bitmapOutOfBounds i)) := by
  have hfirst : FramesInside 0 (0 + 256) := .inr (by decide)
  obtain ⟨b₁, hmega⟩ := eachFrame_ok (b := b) setFrame_checks hfirst
  unfold protectFrames
  simp only [hmega]
  rcases eachFrame_range (b := b₁) setFrame_checks (kernelStart / 4096)
    ((kernelEnd + 4095) % 4294967296 / 4096) with ⟨hin, b', hok⟩ | ⟨hout, i, -, hstop⟩
  · exact .inl ⟨hin, b', hok⟩
  · exact .inr ⟨hout, i, hstop⟩

section Walk

variable (hwalk : MmapWalk mem ((mboot.mmapAddr + mboot.mmapLength) % 4294967296) mboot.mmapAddr es)
include hwalk

/-- Areas that end inside the bitmap, and a kernel that does, are entered. -/
theorem pmmInit_yields (hin : ∀ e ∈ es, e.Inside)
    (hkernel : FramesInside (kernelStart / 4096) ((kernelEnd + 4095) % 4294967296 / 4096)) :
    ∃ b', Yields (pmmInit mem mboot kernelStart kernelEnd b) b' := by
  obtain ⟨b₁, hloop⟩ :=
    mmapLoop_yields (b := fun i => if i < bitmapSize then 0xFF else b i) hwalk hin
  rcases protectFrames_cases b₁ kernelStart kernelEnd with ⟨-, b', hok⟩ | ⟨hout, -⟩
  · refine ⟨b', es.length + 1, ?_⟩
    unfold pmmInit
    simp only [hloop, hok]
  · exact absurd hkernel hout

/-- An area that does not end inside the bitmap, or a kernel that does not, takes the call out of
bounds. -/
theorem pmmInit_stops (hout : ¬ ((∀ e ∈ es, e.Inside) ∧
      FramesInside (kernelStart / 4096) ((kernelEnd + 4095) % 4294967296 / 4096))) :
    ∃ n i, pmmInit mem mboot kernelStart kernelEnd b n = .stop (.bitmapOutOfBounds i) := by
  refine ⟨es.length + 1, ?_⟩
  unfold pmmInit
  by_cases hin : ∀ e ∈ es, e.Inside
  · obtain ⟨b₁, hloop⟩ :=
      mmapLoop_yields (b := fun i => if i < bitmapSize then 0xFF else b i) hwalk hin
    rcases protectFrames_cases b₁ kernelStart kernelEnd with ⟨hkernel, -⟩ | ⟨-, i, hstop⟩
    · exact absurd ⟨hin, hkernel⟩ hout
    · exact ⟨i, by simp only [hloop, hstop]⟩
  · rw [not_forall] at hin
    obtain ⟨e, hin⟩ := hin
    rw [Classical.not_imp] at hin
    obtain ⟨i, -, hstop⟩ := mmapLoop_stops (b := fun i => if i < bitmapSize then 0xFF else b i)
      hwalk ⟨e, hin.1, hin.2⟩
    exact ⟨i, by simp only [hstop]⟩

/-- `pmm_init` stays inside its bitmap exactly when every available area on the map, with frame
numbers of 32 bits, and the kernel are empty or end at frame 32768 or below. -/
theorem pmmInit_inside_iff :
    (∀ n i, pmmInit mem mboot kernelStart kernelEnd b n ≠ .stop (.bitmapOutOfBounds i)) ↔
      (∀ e ∈ es, e.Inside) ∧
        FramesInside (kernelStart / 4096) ((kernelEnd + 4095) % 4294967296 / 4096) := by
  constructor
  · intro hnever
    by_contra hout
    obtain ⟨n, i, hstop⟩ := pmmInit_stops (b := b) hwalk hout
    exact hnever n i hstop
  · rintro ⟨hin, hkernel⟩ n i hstop
    obtain ⟨b', hyields⟩ := pmmInit_yields (b := b) hwalk hin hkernel
    exact hyields.not_stop (pmmInit_mono mem mboot kernelStart kernelEnd b) hstop

end Walk

end

/-- A map at address 4096 with one entry: `len` bytes of available memory from 1 MiB on. -/
def oneAreaMap (len : Nat) : ByteMemory :=
  let mem := setWord (fun _ => 0) 4096 20
  let mem := setWord mem 4100 1048576
  let mem := setWord mem 4108 len
  setWord mem 4116 1

/-- The map above is what the boot loader has left. -/
def oneAreaInfo : MultibootInfo := ⟨24, 4096⟩

theorem oneAreaMap_walk :
    MmapWalk (oneAreaMap 0x10000000) ((oneAreaInfo.mmapAddr + oneAreaInfo.mmapLength) % 4294967296)
      oneAreaInfo.mmapAddr [mmapEntryAt (oneAreaMap 0x10000000) 4096] := by
  refine .entry (by decide) (.done ?_)
  decide +kernel

/-- 256 MiB of memory are more than the bitmap has room for. -/
theorem pmmInit_outside_oneAreaMap :
    ¬ ∀ n i, pmmInit (oneAreaMap 0x10000000) oneAreaInfo 0x100000 0x110000 (fun _ => 0) n ≠
      .stop (.bitmapOutOfBounds i) := by
  intro hnever
  have hstops :
      ∃ n i, pmmInit (oneAreaMap 0x10000000) oneAreaInfo 0x100000 0x110000 (fun _ => 0) n =
      .stop (.bitmapOutOfBounds i) := pmmInit_stops oneAreaMap_walk (by decide +kernel)
  obtain ⟨n, i, hstop⟩ := hstops
  exact hnever n i hstop

/-- With 64 MiB all accesses are inside. -/
theorem pmmInit_inside_oneAreaMap :
    ¬ ∃ n i, pmmInit (oneAreaMap 0x4000000) oneAreaInfo 0x100000 0x110000 (fun _ => 0) n =
      .stop (.bitmapOutOfBounds i) := by
  have hwalk : MmapWalk (oneAreaMap 0x4000000)
      ((oneAreaInfo.mmapAddr + oneAreaInfo.mmapLength) % 4294967296) oneAreaInfo.mmapAddr
      [mmapEntryAt (oneAreaMap 0x4000000) 4096] := by
    refine .entry (by decide) (.done ?_)
    decide +kernel
  rintro ⟨n, i, hstop⟩
  refine (pmmInit_inside_iff hwalk).mpr ?_ n i hstop
  decide +kernel

end Pelikan

end SystemsProjects

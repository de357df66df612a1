import Mathlib.Logic.Relation
import SystemsProjects.Pelikan.Coalescing

/-!
# Exhausted memory and rejected frees

Two errors that the heap detects and does not act upon.

`pmm_alloc_frame` reports exhausted memory by 0xFFFFFFFF, `request_space` looks for 0. The header of
a new block is written at 0xFFFFFFFF, its other bytes wrap around to the start of the memory, and
the block serves the request.

- `new_words`: what a new header says, wherever the last block of the list stands.
- `kmalloc_lost`: a call that no block can serve returns 19, or walks along the list forever.
- `kmalloc_returns_iff`: when `kmalloc` returns, whatever is in the memory.

`kfree` prints what it thinks of its argument, and goes on.

- `kfree_eq_self`: the double free that stores only what is there.
- `rejected_unchanged`: runs in which rejected frees leave the memory alone.
- `rejected_frees_write`: a bad free and a double free that do not.

For the lost frame there is no list to reason about: the new header lies across the end of the
memory, and the proof is about the bytes that its stores reach. The rejected frees are about the
two `hlt`s, behind which the code goes on and joins what it has just rejected; only a double
free of a block with nothing free next to it stores what is there already.
-/

namespace SystemsProjects

namespace Pelikan

open ByteMemory TransitionSystem

/-! ## What is promised when memory is exhausted -/

/-- Every frame is in use. -/
def Exhausted (b : Bitmap) : Prop := ∀ f, f < maxFrames → bitAt b f = true

/-- The blocks that following `next` from `head` visits. The list may go round in circles. -/
inductive OnList (h : Heap) : Nat → Prop where
  | head (hne : h.head ≠ 0) : OnList h h.head
  | next {b : Nat} (hb : OnList h b) (hne : h.get b .next ≠ 0) : OnList h (h.get b .next)

/-- The call returns 0 with the heap as it was, or halts. -/
def FailsCleanly (h : Heap) (size : Nat) : Prop :=
  (∃ n, kmalloc h size n = .done (0, h)) ∨ ∃ n, kmalloc h size n = .stop .halted

/-- Where the header of the new block goes. -/
def lostBlock : Nat := 4294967295

section

variable {h : Heap} {size n b current last p : Nat}

/-- Without a frame the new block gets the number `pmm_alloc_frame` fails with for its address. -/
theorem requestSpace_exhausted (hfull : Exhausted h.bitmap) (last : Nat) :
    requestSpace h last = .done (lostBlock, linkFrame h lostBlock last) := by
  rcases allocFrameFrom_spec h.bitmap maxFrames 0 (Nat.zero_add _) with
    ⟨f, -, -, hlt, hfree, -⟩ | ⟨-, halloc⟩
  · rw [hfull f hlt] at hfree
    cases hfree
  · have hno : noFrame.toNat = lostBlock := by decide
    unfold requestSpace pmmAllocFrame
    rw [halloc]
    dsimp only
    rw [hno, if_neg (by decide)]

/-! ## A new block -/

/-- The new block fits every request, unless the link of the block `last` is written over it. -/
theorem new_fits (h : Heap) {block last : Nat}
    (hapart : ∀ i j, i < 8 → j < 4 → byteAddr block i ≠ byteAddr (last + 12) j) :
    (linkFrame h block last).get block .size = 4096 - blockSize ∧
      (linkFrame h block last).get block .free = 1 := by
  unfold linkFrame
  by_cases hlast : last ≠ 0
  · have hkeep : ∀ (k : Heap) (f : Field), f.offset ≤ 4 →
        (k.set last .next block).get block f = k.get block f := by
      intro k f hf
      refine word_congr fun i hi => setWord_of_ne fun j hj => ?_
      have hne := hapart (f.offset + i) j (by omega) hj
      unfold byteAddr at hne ⊢
      rwa [← Nat.add_assoc] at hne
    rw [if_pos hlast, hkeep _ _ (by decide), hkeep _ _ (by decide)]
    constructor
    · simp (disch := decide) only [get_set_of_field_ne, get_set_self]
    · simp (disch := decide) only [get_set_of_field_ne, get_set_self]
  · rw [if_neg hlast]
    constructor
    · simp (disch := decide) only [get_set_of_field_ne, get_set_self]
    · simp (disch := decide) only [get_set_of_field_ne, get_set_self]

/-- A new block fits every request, or it is the last one: what is written over `size` or `free`
does not reach `next`. -/
theorem new_words (h : Heap) (block last : Nat) :
    ((linkFrame h block last).get block .size = 4096 - blockSize ∧
      (linkFrame h block last).get block .free = 1) ∨
      (linkFrame h block last).get block .next = 0 := by
  by_cases hover : ∃ i j, i < 8 ∧ j < 4 ∧ byteAddr block i = byteAddr (last + 12) j
  · right
    obtain ⟨i, j, hi, hj, heq⟩ := hover
    have hkeep : ∀ k : Heap, (k.set last .next block).get block .next = k.get block .next := by
      intro k
      refine word_congr fun i' hi' => setWord_of_ne fun j' hj' heq' => ?_
      have heq' : byteAddr (block + 12) i' = byteAddr (last + 12) j' := heq'
      unfold byteAddr at heq heq'
      omega
    unfold linkFrame
    by_cases hlast : last ≠ 0
    · rw [if_pos hlast, hkeep]
      simp (disch := decide) only [get_set_of_field_ne, get_set_self]
    · rw [if_neg hlast]
      simp (disch := decide) only [get_set_of_field_ne, get_set_self]
  · left
    exact new_fits h fun i j hi hj heq => hover ⟨i, j, hi, hj, heq⟩

/-- Behind itself, the block fits. -/
theorem new_fits_self (h : Heap) (block : Nat) :
    (linkFrame h block block).get block .size = 4096 - blockSize ∧
      (linkFrame h block block).get block .free = 1 := by
  refine new_fits h fun i j hi hj => ?_
  unfold byteAddr
  omega

/-! ## The search -/

/-- A block that does not fit is passed, whatever its words are. -/
theorem search_pass_one (hne : current ≠ 0) (hsize : size ≤ 4096 - blockSize)
    (hfits : ¬ FitsAt h size current) :
    search size (n + 1) h current last = search size n h (h.get current .next) current := by
  rw [search, if_pos hne]
  by_cases hfree : h.get current .free = 1
  · have hlt : h.get current .size < size := Nat.lt_of_not_le fun hle => hfits ⟨hfree, hle⟩
    have hcut : ¬ u32 (size + blockSize + 1) ≤ h.get current .size := by
      unfold u32 blockSize at *
      omega
    rw [if_pos hfree, if_neg (by omega), if_neg hcut, if_neg (by omega)]
  · rw [if_neg hfree]

/-- A block that fits is returned. -/
theorem search_take_one (n last : Nat) (hne : current ≠ 0) (hfits : FitsAt h size current) :
    ∃ h', search size (n + 1) h current last = .done (u32 (current + blockSize), h') := by
  obtain ⟨hfree, hle⟩ := hfits
  rw [search, if_pos hne, if_pos hfree]
  by_cases heq : h.get current .size = size
  · rw [if_pos heq]
    exact ⟨_, rfl⟩
  rw [if_neg heq]
  by_cases hcut : u32 (size + blockSize + 1) ≤ h.get current .size
  · rw [if_pos hcut]
    exact ⟨_, rfl⟩
  rw [if_neg hcut, if_pos (by omega)]
  exact ⟨_, rfl⟩

theorem u32_lostBlock : u32 (lostBlock + blockSize) = 19 := by decide

/-- From the new block on. It fits, or is requested again behind itself. -/
theorem search_lost (hfull : Exhausted h.bitmap) (hsize : size ≤ 4096 - blockSize) (last : Nat) :
    search size n (linkFrame h lostBlock last) lostBlock p = .out ∨
      ∃ h', search size n (linkFrame h lostBlock last) lostBlock p = .done (19, h') := by
  have hne : lostBlock ≠ 0 := by decide
  cases n with
  | zero => exact .inl rfl
  | succ n =>
    by_cases hfits : FitsAt (linkFrame h lostBlock last) size lostBlock
    · right
      rw [← u32_lostBlock]
      exact search_take_one _ _ hne hfits
    · have hnext := (new_words h lostBlock last).resolve_left fun hwords =>
        hfits ⟨hwords.2, hwords.1 ▸ hsize⟩
      rw [search_pass_one hne hsize hfits, hnext]
      cases n with
      | zero => exact .inl rfl
      | succ n =>
        have hfull' : Exhausted (linkFrame h lostBlock last).bitmap := by
          rw [linkFrame_bitmap]
          exact hfull
        rw [search, if_neg (not_not.mpr rfl), requestSpace_exhausted hfull']
        simp only [if_neg hne]
        cases n with
        | zero => exact .inl rfl
        | succ n =>
          right
          obtain ⟨hlarge, hfree⟩ := new_fits_self (linkFrame h lostBlock last) lostBlock
          rw [← u32_lostBlock]
          exact search_take_one _ _ hne ⟨hfree, hlarge ▸ hsize⟩

/-- Along a list on which nothing fits, which may be endless. -/
theorem search_exhausted (hfull : Exhausted h.bitmap) (hsize : size ≤ 4096 - blockSize)
    (hnone : ∀ b, OnList h b → ¬ FitsAt h size b) (hcurrent : current = 0 ∨ OnList h current)
    (last : Nat) :
    search size n h current last = .out ∨ ∃ h', search size n h current last = .done (19, h') := by
  induction n generalizing current last with
  | zero => exact .inl rfl
  | succ n ih =>
    by_cases hne : current = 0
    · subst hne
      rw [search, if_neg (not_not.mpr rfl), requestSpace_exhausted hfull]
      simp only [if_neg (show lostBlock ≠ 0 by decide)]
      exact search_lost hfull hsize last
    · have hon := hcurrent.resolve_left hne
      rw [search_pass_one hne hsize (hnone current hon)]
      refine ih ?_ current
      by_cases hnext : h.get current .next = 0
      · exact .inl hnext
      · exact .inr (.next hon hnext)

/-- A call that no block can serve never fails: it returns 19 when it returns. -/
theorem kmalloc_lost (hpos : 1 ≤ size) (hsize : size ≤ 4096 - blockSize)
    (hnone : ∀ b, OnList h b → ¬ FitsAt h size b) (hfull : Exhausted h.bitmap) (n : Nat) :
    kmalloc h size n = .out ∨ ∃ h', kmalloc h size n = .done (19, h') := by
  unfold kmalloc
  rw [if_neg (by omega), if_neg (by omega)]
  by_cases hhead : h.head = 0
  · have hlink : { linkFrame h lostBlock 0 with head := lostBlock } =
        linkFrame { h with head := lostBlock } lostBlock 0 := rfl
    rw [if_pos hhead, requestSpace_exhausted hfull]
    dsimp only
    rw [hlink]
    exact search_lost (h := { h with head := lostBlock }) hfull hsize 0
  · rw [if_neg hhead]
    exact search_exhausted hfull hsize hnone (.inr (.head hhead)) 0

/-- A call that returns 19 or nothing does not fail. -/
theorem not_failsCleanly
    (hcall : ∀ n, kmalloc h size n = .out ∨ ∃ h', kmalloc h size n = .done (19, h')) :
    ¬ FailsCleanly h size := by
  rintro (⟨n, hfails⟩ | ⟨n, hfails⟩)
  · rcases hcall n with hout | ⟨h', hdone⟩
    · rw [hout] at hfails
      cases hfails
    · rw [hdone] at hfails
      obtain ⟨h19, -⟩ := Prod.mk.inj (Fueled.done.inj hfails)
      cases h19
  · rcases hcall n with hout | ⟨h', hdone⟩
    · rw [hout] at hfails
      cases hfails
    · rw [hdone] at hfails
      cases hfails

/-- When memory is exhausted, no request that the list cannot serve is refused. -/
theorem kmalloc_not_failsCleanly (hpos : 1 ≤ size) (hsize : size ≤ 4096 - blockSize)
    (hnone : ∀ b, OnList h b → ¬ FitsAt h size b) (hfull : Exhausted h.bitmap) :
    ¬ FailsCleanly h size :=
  not_failsCleanly (kmalloc_lost hpos hsize hnone hfull)

end

/-- No block, and no frame left. -/
def fullHeap : Heap := ⟨fun _ => 0, 0, fun _ => 255⟩

theorem fullHeap_exhausted : Exhausted fullHeap.bitmap := by
  intro f _
  have hlt : f % 8 < 8 := Nat.mod_lt f (by decide)
  have hones : fullHeap.bitmap (f / 8) = BitVec.allOnes 8 := rfl
  unfold bitAt
  rw [hones, BitVec.getLsbD_allOnes, decide_eq_true hlt]

theorem fullHeap_no_block (b : Nat) : ¬ OnList fullHeap b := by
  intro hb
  induction hb with
  | head hne => exact hne rfl
  | next _ _ ih => exact ih

theorem fullHeap_not_failsCleanly : ¬ FailsCleanly fullHeap 100 :=
  kmalloc_not_failsCleanly (by decide) (by decide) (fun b hb => absurd hb (fullHeap_no_block b))
    fullHeap_exhausted

/-- The call returns 19, and the list begins at 0xFFFFFFFF. -/
theorem kmalloc_fullHeap : (∀ b, OnList fullHeap b → ¬ FitsAt fullHeap 100 b) ∧
    Exhausted fullHeap.bitmap ∧ ¬ FailsCleanly fullHeap 100 ∧
      ∃ h', Yields (kmalloc fullHeap 100) (19, h') ∧ h'.head = 4294967295 ∧
        fullHeap.mem 7 = 0 ∧ h'.mem 7 = 0xEF := by
  have hnone : ∀ b, OnList fullHeap b → ¬ FitsAt fullHeap 100 b :=
    fun b hb => absurd hb (fullHeap_no_block b)
  have hcall : kmalloc fullHeap 100 1 =
      search 100 1 { linkFrame fullHeap lostBlock 0 with head := lostBlock } lostBlock 0 := by
    unfold kmalloc
    rw [if_neg (by decide), if_neg (by decide), if_pos (show fullHeap.head = 0 from rfl),
      requestSpace_exhausted fullHeap_exhausted]
  refine ⟨hnone, fullHeap_exhausted, ?_, _, ⟨1, hcall.trans rfl⟩, rfl, rfl, rfl⟩
  exact not_failsCleanly (kmalloc_lost (by decide) (by decide) hnone fullHeap_exhausted)

/-! ## When `kmalloc` returns -/

/-- The list goes round in circles. -/
def Endless (h : Heap) : Prop := h.head ≠ 0 ∧ ∀ b, OnList h b → h.get b .next ≠ 0

/-- No block serves the request, and the search for the end of the list does not end, or
`pmm_alloc_frame` hands out the frame 0, which `request_space` takes for its failure. -/
def NeverReturns (h : Heap) (size : Nat) : Prop :=
  (∀ b, OnList h b → ¬ FitsAt h size b) ∧ (Endless h ∨ bitAt h.bitmap 0 = false)

/-- What `pmm_alloc_frame` has returned to `request_space`. -/
def Issued (b : Bitmap) (block : Nat) : Prop :=
  block = lostBlock ∨ ∃ f, 0 < f ∧ f < maxFrames ∧ bitAt b f = true ∧ block = f * 4096

section

variable {h : Heap} {size b current last p : Nat}

/-- The first frame halts `request_space`. -/
theorem requestSpace_zero (hfree : bitAt h.bitmap 0 = false) (last : Nat) :
    requestSpace h last = .stop .halted := by
  rcases allocFrameFrom_spec h.bitmap maxFrames 0 (Nat.zero_add _) with
    ⟨f, bitmap, -, hlt, -, hused, halloc, -⟩ | ⟨hused, -⟩
  · rcases Nat.eq_zero_or_pos f with rfl | hpos
    · unfold requestSpace pmmAllocFrame
      rw [halloc]
      dsimp only
      rw [frameAddr_toNat hlt, if_pos rfl]
    · have hzero := hused 0 (Nat.le_refl 0) hpos
      rw [hfree] at hzero
      cases hzero
  · have hzero := hused 0 (Nat.le_refl 0) (by decide)
    rw [hfree] at hzero
    cases hzero

/-- Another frame, or 0xFFFFFFFF. Its header is apart from the `next` word of those before it. -/
theorem requestSpace_issues (hzero : bitAt h.bitmap 0 = true) (last : Nat) :
    ∃ block bitmap, Issued bitmap block ∧ block ≠ 0 ∧ bitAt bitmap 0 = true ∧
      requestSpace h last = .done (block, linkFrame { h with bitmap } block last) ∧
      ∀ c, Issued h.bitmap c →
        ∀ i j, i < 8 → j < 4 → byteAddr block i ≠ byteAddr (c + 12) j := by
  rcases allocFrameFrom_spec h.bitmap maxFrames 0 (Nat.zero_add _) with
    ⟨f, bitmap, -, hlt, hfree, -, halloc, hbits⟩ | ⟨hused, -⟩
  · -- frame 0 is used, so another one is handed out
    have hpos : 0 < f := by
      rcases Nat.eq_zero_or_pos f with rfl | hpos
      · rw [hzero] at hfree
        cases hfree
      · exact hpos
    have hbit : bitAt bitmap f = true := by
      rw [hbits f, decide_eq_true rfl, Bool.true_or]
    refine ⟨f * 4096, bitmap, .inr ⟨f, hpos, hlt, hbit, rfl⟩, by omega, ?_, ?_, ?_⟩
    · rw [hbits 0, hzero, Bool.or_true]
    · unfold requestSpace pmmAllocFrame
      rw [halloc]
      dsimp only
      rw [frameAddr_toNat hlt, if_neg (by omega)]
    · rintro c (rfl | ⟨g, hgpos, hglt, hg, rfl⟩) i j hi hj
      · unfold byteAddr lostBlock maxFrames at *
        omega
      · have hne : f ≠ g := by
          rintro rfl
          rw [hg] at hfree
          cases hfree
        unfold byteAddr maxFrames at *
        omega
  · -- no frame is left: the answer `0xFFFFFFFF` is taken for the address of a block
    have hfull : Exhausted h.bitmap := fun f hf => hused f (Nat.zero_le f) hf
    refine ⟨lostBlock, h.bitmap, .inl rfl, by decide, hzero, requestSpace_exhausted hfull last, ?_⟩
    rintro c (rfl | ⟨g, hgpos, hglt, -, rfl⟩) i j hi hj
    · unfold byteAddr lostBlock
      omega
    · unfold byteAddr lostBlock maxFrames at *
      omega

/-- From a new block on, the search returns. -/
theorem search_issued (hsize : size ≤ 4096 - blockSize) {block : Nat} (hblock : block ≠ 0)
    (hissued : Issued h.bitmap block) (hzero : bitAt h.bitmap 0 = true) (last p : Nat) :
    ∃ n r, search size n (linkFrame h block last) block p = .done r := by
  by_cases hfits : FitsAt (linkFrame h block last) size block
  · obtain ⟨h', hdone⟩ := search_take_one 0 p hblock hfits
    exact ⟨1, _, hdone⟩
  · have hnext := (new_words h block last).resolve_left fun hwords =>
      hfits ⟨hwords.2, hwords.1 ▸ hsize⟩
    -- the next frame is linked behind the block that does not fit
    have hzero' : bitAt (linkFrame h block last).bitmap 0 = true := by
      rw [linkFrame_bitmap]
      exact hzero
    have hissued' : Issued (linkFrame h block last).bitmap block := by
      rw [linkFrame_bitmap]
      exact hissued
    obtain ⟨block', bitmap, -, hblock', -, hrequest, hapart⟩ := requestSpace_issues hzero' block
    obtain ⟨hlarge, hfree⟩ :=
      new_fits { linkFrame h block last with bitmap } (hapart block hissued')
    obtain ⟨h', hdone⟩ := search_take_one 0 block hblock' ⟨hfree, hlarge ▸ hsize⟩
    refine ⟨3, (u32 (block' + blockSize), h'), ?_⟩
    rw [search_pass_one hblock hsize hfits, hnext, search, if_neg (not_not.mpr rfl), hrequest]
    dsimp only
    rw [if_neg hblock']
    exact hdone

/-- The block behind another one on the list. -/
def NextOf (h : Heap) (b c : Nat) : Prop := c = h.get b .next ∧ c ≠ 0

/-- Being on the list is being reached along `next`. -/
theorem OnList.reaches (hb : OnList h b) :
    h.head ≠ 0 ∧ b ≠ 0 ∧ Relation.ReflTransGen (NextOf h) h.head b := by
  induction hb with
  | head hne => exact ⟨hne, hne, .refl⟩
  | next hb hne ih => exact ⟨ih.1, hne, ih.2.2.tail ⟨rfl, hne⟩⟩

/-- The search ends at a block that fits, or behind the last block. -/
theorem search_returns (hsize : size ≤ 4096 - blockSize)
    (hend : FitsAt h size b ∨ h.get b .next = 0 ∧ bitAt h.bitmap 0 = true)
    (hreach : Relation.ReflTransGen (NextOf h) current b) (hcurrent : current ≠ 0) (last : Nat) :
    ∃ n r, search size n h current last = .done r := by
  induction hreach using Relation.ReflTransGen.head_induction_on generalizing last with
  | refl =>
    by_cases hfits : FitsAt h size b
    · obtain ⟨h', hdone⟩ := search_take_one 0 last hcurrent hfits
      exact ⟨1, _, hdone⟩
    · obtain ⟨hnext, hzero⟩ := hend.resolve_left hfits
      obtain ⟨block, bitmap, hissued, hblock, hzero', hrequest, -⟩ := requestSpace_issues hzero b
      obtain ⟨n, r, hdone⟩ := search_issued (h := { h with bitmap }) hsize hblock hissued hzero' b b
      refine ⟨n + 2, r, ?_⟩
      rw [search_pass_one hcurrent hsize hfits, hnext, search, if_neg (not_not.mpr rfl), hrequest]
      dsimp only
      rw [if_neg hblock]
      exact hdone
  | @head current c hnext _ ih =>
    by_cases hfits : FitsAt h size current
    · obtain ⟨h', hdone⟩ := search_take_one 0 last hcurrent hfits
      exact ⟨1, _, hdone⟩
    · obtain ⟨n, r, hdone⟩ := ih hnext.2 current
      refine ⟨n + 1, r, ?_⟩
      rw [search_pass_one hcurrent hsize hfits, ← hnext.1]
      exact hdone

/-- A search that finds no block and no end, or the frame 0 at the end. -/
theorem search_never (hsize : size ≤ 4096 - blockSize)
    (hnone : ∀ b, OnList h b → ¬ FitsAt h size b) (hstuck : Endless h ∨ bitAt h.bitmap 0 = false)
    (n : Nat)
    (hcurrent : (current = 0 ∧ bitAt h.bitmap 0 = false) ∨ (current ≠ 0 ∧ OnList h current))
    (last : Nat) (r : Nat × Heap) : search size n h current last ≠ .done r := by
  induction n generalizing current last with
  | zero =>
    intro hdone
    cases hdone
  | succ n ih =>
    rcases hcurrent with ⟨rfl, hfree⟩ | ⟨hne, hon⟩
    · rw [search, if_neg (not_not.mpr rfl), requestSpace_zero hfree]
      intro hdone
      cases hdone
    · rw [search_pass_one hne hsize (hnone current hon)]
      refine ih ?_ current
      by_cases hnext : h.get current .next = 0
      · refine .inl ⟨hnext, hstuck.resolve_left fun hendless => ?_⟩
        exact hendless.2 current hon hnext
      · exact .inr ⟨hnext, .next hon hnext⟩

/-- When `kmalloc` returns, on any heap. -/
theorem kmalloc_returns_iff (hpos : 1 ≤ size) (hsize : size ≤ 4096 - blockSize) :
    (∃ n r, kmalloc h size n = .done r) ↔ ¬ NeverReturns h size := by
  constructor
  · rintro ⟨n, r, hcall⟩ ⟨hnone, hstuck⟩
    by_cases hhead : h.head = 0
    · have hfree := hstuck.resolve_left fun hendless => hendless.1 hhead
      unfold kmalloc at hcall
      rw [if_neg (by omega), if_neg (by omega), if_pos hhead, requestSpace_zero hfree] at hcall
      cases hcall
    · rw [kmalloc_eq_search hpos hsize hhead] at hcall
      exact search_never hsize hnone hstuck n (.inr ⟨hhead, .head hhead⟩) 0 r hcall
  · intro hreturns
    -- a block that ends the search, when the list is not empty
    have hend : h.head = 0 ∧ bitAt h.bitmap 0 = true ∨
        ∃ b, OnList h b ∧ (FitsAt h size b ∨ h.get b .next = 0 ∧ bitAt h.bitmap 0 = true) := by
      by_cases hfits : ∃ b, OnList h b ∧ FitsAt h size b
      · obtain ⟨b, hb, hfits⟩ := hfits
        exact .inr ⟨b, hb, .inl hfits⟩
      · have hnone : ∀ b, OnList h b → ¬ FitsAt h size b := fun b hb hf => hfits ⟨b, hb, hf⟩
        obtain ⟨hendless, hzero⟩ := not_or.mp fun hstuck => hreturns ⟨hnone, hstuck⟩
        have hzero := Bool.not_eq_false _ ▸ hzero
        by_cases hhead : h.head = 0
        · exact .inl ⟨hhead, hzero⟩
        · right
          by_contra hno
          refine hendless ⟨hhead, fun b hb hnext => hno ?_⟩
          exact ⟨b, hb, .inr ⟨hnext, hzero⟩⟩
    rcases hend with ⟨hhead, hzero⟩ | ⟨b, hb, hend⟩
    · obtain ⟨block, bitmap, hissued, hblock, hzero', hrequest, -⟩ := requestSpace_issues hzero 0
      obtain ⟨n, r, hdone⟩ :=
        search_issued (h := { h with bitmap, head := block }) hsize hblock hissued hzero' 0 0
      refine ⟨n, r, ?_⟩
      unfold kmalloc
      rw [if_neg (by omega), if_neg (by omega), if_pos hhead, hrequest]
      exact hdone
    · obtain ⟨hhead, -, hreach⟩ := hb.reaches
      obtain ⟨n, r, hdone⟩ := search_returns hsize hend hreach hhead 0
      exact ⟨n, r, by rw [kmalloc_eq_search hpos hsize hhead, hdone]⟩

end

/-! ## Frees of any pointer -/

/-- Calls of `kmalloc`, of `kfree` with any pointer, and stores of the clients. -/
inductive AnyFreeStep : HeapState → HeapAction → HeapState → Prop where
  | kmalloc {s : HeapState} {size p : Nat} {h : Heap}
      (hcall : Yields (Pelikan.kmalloc s.heap size) (p, h)) :
      AnyFreeStep s (.kmalloc size)
        ⟨h, if p = 0 then s.live else Function.update s.live p (some size)⟩
  | kfree {s : HeapState} (p : Nat) :
      AnyFreeStep s (.kfree p) ⟨Pelikan.kfree s.heap p, Function.update s.live p none⟩
  | write {s : HeapState} {p n i : Nat} {v : BitVec 8} (hlive : s.live p = some n) (hi : i < n) :
      AnyFreeStep s (.write p i v)
        ⟨{ s.heap with mem := Function.update s.heap.mem (p + i) v }, s.live⟩

/-- The runs of the heap in which anything is freed. -/
def anyFreeSystem : TransitionSystem HeapState HeapAction := ⟨HeapState.Start, AnyFreeStep⟩

/-- The pointer is not null, and `kfree` reports an error. -/
def Rejects (h : Heap) (p : Nat) : Prop := p ≠ 0 ∧ kfreeReport h p ≠ .freed

/-- A free that is rejected leaves the heap as it was. -/
def LeavesAlone (s : HeapState) (a : HeapAction) (s' : HeapState) : Prop :=
  match a with
  | .kfree p => Rejects s.heap p → s'.heap = s.heap
  | _ => True

/-- The header in front of the pointer. -/
def headerOf (p : Nat) : Nat := u32 (p + 4294967296 - blockSize)

/-- The test of `kfree` on the block behind: it is free, and the block ends at it. -/
def PassesNext (h : Heap) (block : Nat) : Prop :=
  h.get block .next ≠ 0 ∧ h.get (h.get block .next) .free = 1 ∧
    u32 (block + blockSize + h.get block .size) = h.get block .next

/-- A free that is rejected is a double free, of a header that is marked as free and whose `next`
and `prev` words name no block that `kfree` joins it with. -/
def RejectsIdle (s : HeapState) (a : HeapAction) : Prop :=
  match a with
  | .kfree p => Rejects s.heap p →
      kfreeReport s.heap p = .doubleFree ∧ s.heap.get (headerOf p) .free = 1 ∧
        ¬ PassesNext s.heap (headerOf p) ∧
        ¬ PassesPrev s.heap (s.heap.get (headerOf p) .prev) (headerOf p)
  | _ => True

section

variable {h : Heap} {p b : Nat} {s s' : HeapState}

/-- Storing the word that is there. -/
theorem set_get (h : Heap) (b : Nat) (f : Field) : h.set b f (h.get b f) = h := by
  unfold Heap.set Heap.get
  rw [setWord_word]

theorem coalesceNext_of_not (hnext : ¬ PassesNext h b) : coalesceNext h b = h := by
  unfold coalesceNext
  exact if_neg hnext

theorem coalescePrev_of_not (hprev : ¬ PassesPrev h (h.get b .prev) b) : coalescePrev h b = h := by
  unfold coalescePrev
  exact if_neg hprev

/-- A double free is reported at the magic of a free block. -/
theorem kfreeReport_doubleFree (hreport : kfreeReport h p = .doubleFree) :
    h.get (headerOf p) .magic = heapMagicFree := by
  unfold kfreeReport at hreport
  simp only at hreport
  split at hreport
  · cases hreport
  · split at hreport
    · next hmagic => exact hmagic
    · cases hreport

/-- A double free stores what is there when the header is marked as free and neither test passes. -/
theorem kfree_eq_self (hreport : kfreeReport h p = .doubleFree)
    (hfree : h.get (headerOf p) .free = 1) (hnext : ¬ PassesNext h (headerOf p))
    (hprev : ¬ PassesPrev h (h.get (headerOf p) .prev) (headerOf p)) : kfree h p = h := by
  have hmarked : marked h (headerOf p) = h := by
    have hone : h.set (headerOf p) .free 1 = h := by
      rw [← hfree]
      exact set_get ..
    unfold marked
    rw [hone, ← kfreeReport_doubleFree hreport]
    exact set_get ..
  have hcall : p ≠ 0 → kfree h p =
      coalescePrev (coalesceNext (marked h (headerOf p)) (headerOf p)) (headerOf p) :=
    fun hp => if_neg hp
  by_cases hp : p = 0
  · exact if_pos hp
  · rw [hcall hp, hmarked, coalesceNext_of_not hnext, coalescePrev_of_not hprev]

/-- A rejected free that joins nothing leaves the heap as it was. -/
theorem AnyFreeStep.leavesAlone {a : HeapAction} (hstep : AnyFreeStep s a s')
    (hidle : RejectsIdle s a) : LeavesAlone s a s' := by
  cases hstep with
  | kmalloc hcall => trivial
  | kfree p =>
    intro hrejects
    obtain ⟨hreport, hfree, hnext, hprev⟩ := hidle hrejects
    exact kfree_eq_self hreport hfree hnext hprev
  | write hlive hi => trivial

/-- In a run whose rejected frees are all double frees of idle headers, they leave the heap as it
was. -/
theorem rejected_unchanged {t : List (Taken HeapState HeapAction)} (hrun : anyFreeSystem.Run t s)
    (hidle : ∀ x ∈ t, RejectsIdle x.before x.action) :
    ∀ x ∈ t, LeavesAlone x.before x.action x.after := by
  intro x hx
  have hstep := hrun.step_of_mem hx
  exact AnyFreeStep.leavesAlone hstep (hidle x hx)

end

/-! ## Two rejected frees -/

/-- The steps of the heap are among those with any frees. -/
theorem heapStep_anyFree {s s' : HeapState} {a : HeapAction} (hstep : HeapStep s a s') :
    AnyFreeStep s a s' := by
  cases hstep with
  | kmalloc hleft hcall => exact .kmalloc hcall
  | kfree hlive => exact .kfree _
  | write hlive hi => exact .write hlive hi

theorem heapRun_anyFree {as : List HeapAction} {s : HeapState} (h : heapRun as = some s) :
    anyFreeSystem.Reachable s :=
  (Reachable.init bootState_start).runActions
    (fun _ a _ hs => ⟨a, heapStep_anyFree (heapExec_step _ _ _ hs)⟩) h

/-- Three blocks in a row. The one in the middle is freed first and merged into the first one. -/
def mergedRun : List HeapAction :=
  [.kmalloc 100, .kmalloc 100, .kmalloc 100, .kfree 1048716, .kfree 1048596, .kfree 1048836]

/-- Freed again, the dead header in the middle is joined with the third one. -/
theorem mergedRun_words : (heapRun mergedRun).map (fun s => (kfreeReport s.heap 1048716,
    s.heap.get 1048696 .size, (kfree s.heap 1048716).get 1048696 .size)) =
      some (.doubleFree, 100, 3956) := by decide +kernel

/-- A bad free of a pointer that the heap has never seen, and a double free. -/
theorem rejected_frees_write :
    (∃ s s', anyFreeSystem.Reachable s ∧ anyFreeSystem.Step s (.kfree 4116) s' ∧
      kfreeReport s.heap 4116 = .badFree ∧ ¬ LeavesAlone s (.kfree 4116) s') ∧
    ∃ s s', anyFreeSystem.Reachable s ∧ anyFreeSystem.Step s (.kfree 1048716) s' ∧
      kfreeReport s.heap 1048716 = .doubleFree ∧ ¬ LeavesAlone s (.kfree 1048716) s' := by
  constructor
  · refine ⟨bootState, _, .init bootState_start, .kfree 4116, by decide +kernel, ?_⟩
    intro hleaves
    have hsame : kfree bootState.heap 4116 = bootState.heap :=
      hleaves ⟨by decide, by decide +kernel⟩
    have hbyte : (kfree bootState.heap 4116).mem 4104 = 0xEE := by decide +kernel
    rw [hsame] at hbyte
    exact absurd (show (0 : BitVec 8) = 0xEE from hbyte) (by decide)
  · obtain ⟨s, hs, hwords⟩ := Option.map_eq_some_iff.mp mergedRun_words
    simp only [Prod.mk.injEq] at hwords
    obtain ⟨hreport, hbefore, hafter⟩ := hwords
    -- the heap that is left is known by its words, not by the run of `kfree`
    have hstep := AnyFreeStep.kfree (s := s) 1048716
    generalize kfree s.heap 1048716 = h' at hstep hafter
    refine ⟨s, _, heapRun_anyFree hs, hstep, hreport, fun hleaves => ?_⟩
    have hsame : h' = s.heap := hleaves ⟨by decide, by rw [hreport]; decide⟩
    rw [hsame, hbefore] at hafter
    exact absurd hafter (by decide)

/-- The only block, freed once. -/
theorem freedOnce_words : (heapExec bootState (.kmalloc 4076)).map (fun s =>
    (kfreeReport s.heap 1048596, kfreeReport (kfree s.heap 1048596) 1048596,
      [(kfree s.heap 1048596).get 1048576 .free, (kfree s.heap 1048596).get 1048576 .next,
        (kfree s.heap 1048596).get 1048576 .prev])) =
      some (.freed, .doubleFree, [1, 0, 0]) := by decide +kernel

/-- Freed again, it stays as it is. -/
theorem rejected_unchanged_twice : ∃ s s' s'',
    anyFreeSystem.Run [⟨s', .kfree 1048596, s''⟩, ⟨s, .kfree 1048596, s'⟩,
      ⟨bootState, .kmalloc 4076, s⟩] s'' ∧
      kfreeReport s'.heap 1048596 = .doubleFree ∧ s''.heap = s'.heap := by
  obtain ⟨s, hs, hwords⟩ := Option.map_eq_some_iff.mp freedOnce_words
  simp only [Prod.mk.injEq, List.cons.injEq, and_true] at hwords
  obtain ⟨hfreed, hdouble, hfree, hnext, hprev⟩ := hwords
  have hrun : anyFreeSystem.Run [⟨bootState, .kmalloc 4076, s⟩] s :=
    .step (.init bootState_start) (heapStep_anyFree (heapExec_step _ _ _ hs))
  have hfirst := hrun.step (AnyFreeStep.kfree 1048596)
  generalize kfree s.heap 1048596 = h₁ at hfirst hdouble hfree hnext hprev
  have hsecond := hfirst.step (AnyFreeStep.kfree 1048596)
  generalize kfree h₁ 1048596 = h₂ at hsecond
  have hheader : headerOf 1048596 = 1048576 := by decide
  have hleaves := rejected_unchanged hsecond (by
    rw [List.forall_mem_cons, List.forall_mem_cons, List.forall_mem_singleton]
    refine ⟨fun _ => ?_, fun hrejects => absurd hfreed hrejects.2, trivial⟩
    rw [hheader]
    exact ⟨hdouble, hfree, fun h => h.1 hnext, fun h => h.1 hprev⟩) _ (List.mem_cons_self ..)
  refine ⟨s, _, _, hsecond, hdouble, hleaves ⟨by decide, ?_⟩⟩
  show kfreeReport h₁ 1048596 ≠ .freed
  rw [hdouble]
  decide

end Pelikan

end SystemsProjects

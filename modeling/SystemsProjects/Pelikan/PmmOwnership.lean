import Mathlib.Data.Finset.Card
import Mathlib.Order.Interval.Finset.Nat
import SystemsProjects.Pelikan.Pmm

/-!
# Who owns a frame

The bitmap is read as a set of used frames (`bitAt`), and each function of the frame
allocator gets one rule about that set: which frame or run it hands out, and what it
leaves in use. The two searches are exact: `pmm_alloc_frame` finds the first free frame,
`pmm_alloc_contiguous` the first free run (`contiguousFrom_spec`).

- `PmmRun b₀ b held`: a run of calls from the bitmap `b₀` has led to the bitmap `b`, and
  `held` are the frames handed out and not freed since.
- `Owned`: the invariant, kept by every call. The used frames are those used at the start
  and those held, and no frame is both.
- `pmmRun_owned`: what it says about every reachable bitmap and the next call.

The window search is the one induction with content here. Its invariant is that no free run
begins in front of the window and that the window itself is free; when a used frame is met the
window starts behind it, and no run has been missed. Everything else follows from what a call
does to the set of used frames, by `Owned.grant` or by taking frames away.
-/

namespace SystemsProjects

namespace Pelikan

/-! ## Single frames -/

section Frames

variable {b : Bitmap} {f : Nat}

theorem byte_lt (hf : f < maxFrames) : f / 8 < bitmapSize := by
  unfold maxFrames at hf
  unfold bitmapSize
  omega

theorem testFrame_eq (hf : f < maxFrames) : testFrame b f = .ok (bitAt b f) := by
  rw [testFrame, if_pos (byte_lt hf)]
  congr 1
  rw [Bool.eq_iff_iff, decide_eq_true_eq]
  exact and_mask_ne_zero b f

/-- Setting a frame sets its bit and no other. -/
theorem setFrame_eq (hf : f < maxFrames) :
    ∃ b', setFrame b f = .ok b' ∧ ∀ g, bitAt b' g = (decide (g = f) || bitAt b g) :=
  ⟨_, if_pos (byte_lt hf), bitAt_or_mask b f⟩

/-- Clearing a frame clears its bit and no other. -/
theorem clearFrame_eq (hf : f < maxFrames) :
    ∃ b', clearFrame b f = .ok b' ∧ ∀ g, bitAt b' g = (!decide (g = f) && bitAt b g) :=
  ⟨_, if_pos (byte_lt hf), bitAt_and_not_mask b f⟩

/-- The address of a frame does not wrap around. -/
theorem frameAddr_toNat (hf : f < maxFrames) : (frameAddr f).toNat = f * 4096 := by
  unfold maxFrames at hf
  rw [frameAddr, BitVec.toNat_ofNat]
  exact Nat.mod_eq_of_lt (by omega)

theorem frameAddr_ne_noFrame (hf : f < maxFrames) : frameAddr f ≠ noFrame := by
  intro h
  have hval := congrArg BitVec.toNat h
  rw [frameAddr_toNat hf] at hval
  have hno : noFrame.toNat = 4294967295 := rfl
  unfold maxFrames at hf
  omega

end Frames

/-! ## Allocating one frame -/

/-- What `pmm_alloc_frame` does: it takes the first free frame, if there is one. -/
theorem allocFrameFrom_spec (b : Bitmap) (k frame : Nat) (hk : frame + k = maxFrames) :
    (∃ f b', frame ≤ f ∧ f < maxFrames ∧ bitAt b f = false ∧
      (∀ g, frame ≤ g → g < f → bitAt b g = true) ∧
      allocFrameFrom b k frame = .ok (frameAddr f, b') ∧
      ∀ g, bitAt b' g = (decide (g = f) || bitAt b g)) ∨
    ((∀ g, frame ≤ g → g < maxFrames → bitAt b g = true) ∧
      allocFrameFrom b k frame = .ok (noFrame, b)) := by
  induction k generalizing frame with
  | zero =>
    refine .inr ⟨fun g hg hlt => ?_, rfl⟩
    omega
  | succ k ih =>
    have hlt : frame < maxFrames := by omega
    rw [allocFrameFrom, testFrame_eq hlt, ok_bind]
    cases hbit : bitAt b frame with
    | false =>
      obtain ⟨b', hset, hbits⟩ := setFrame_eq (b := b) hlt
      refine .inl ⟨frame, b', Nat.le_refl _, hlt, hbit, fun g hg hgf => ?_, ?_, hbits⟩
      · omega
      · rw [if_neg (by decide), hset]
        rfl
    | true =>
      -- a used frame is passed over, so all in front of the answer are used
      have hext : ∀ {m}, (∀ g, frame + 1 ≤ g → g < m → bitAt b g = true) →
          ∀ g, frame ≤ g → g < m → bitAt b g = true := by
        intro m h g hg hgm
        by_cases heq : g = frame
        · rw [heq, hbit]
        · exact h g (by omega) hgm
      rcases ih (frame + 1) (by omega) with ⟨f, b', hle, hf, hfree, hused, halloc, hbits⟩ |
        ⟨hused, halloc⟩
      · exact .inl ⟨f, b', by omega, hf, hfree, hext hused, halloc, hbits⟩
      · exact .inr ⟨hext hused, halloc⟩

/-! ## Allocating a run -/

/-- The frames `s, …, s + n - 1` exist and are free. -/
def FreeRun (b : Bitmap) (n s : Nat) : Prop :=
  s + n ≤ maxFrames ∧ ∀ g, s ≤ g → g < s + n → bitAt b g = false

/-- The window search. The window `start .. last - 1` is free and too short, and no run
begins before it; the search ends at the first run there is. -/
theorem contiguousFrom_spec (b : Bitmap) {n : U32} (k start last : Nat)
    (hk : last + k = maxFrames) (hle : start ≤ last) (hshort : last - start < n.toNat)
    (hwindow : ∀ g, start ≤ g → g < last → bitAt b g = false)
    (hbefore : ∀ s, s < start → ¬ FreeRun b n.toNat s) :
    (∃ s, contiguousFrom b n k start last = .ok (some (s, s + n.toNat - 1)) ∧
      FreeRun b n.toNat s ∧ ∀ s', s' < s → ¬ FreeRun b n.toNat s') ∨
    (contiguousFrom b n k start last = .ok none ∧ ∀ s, ¬ FreeRun b n.toNat s) := by
  induction k generalizing start last with
  | zero =>
    refine .inr ⟨rfl, fun s hs => ?_⟩
    by_cases hlt : s < start
    · exact hbefore s hlt hs
    · have hfit := hs.1
      omega
  | succ k ih =>
    have hlt : last < maxFrames := by omega
    rw [contiguousFrom, testFrame_eq hlt, ok_bind]
    cases hbit : bitAt b last with
    | true =>
      -- every run from inside the window on would contain the used frame `last`
      have hnext : ∀ s, s < last + 1 → ¬ FreeRun b n.toNat s := by
        intro s hs hrun
        by_cases hlt' : s < start
        · exact hbefore s hlt' hrun
        · have hfree := hrun.2 last (by omega) (by omega)
          rw [hbit] at hfree
          cases hfree
      rw [if_pos rfl]
      refine ih (last + 1) (last + 1) (by omega) (Nat.le_refl _) (by omega) ?_ hnext
      intro g hg hg'
      omega
    | false =>
      rw [if_neg (by decide)]
      have hwindow' : ∀ g, start ≤ g → g < last + 1 → bitAt b g = false := by
        intro g hg hg'
        by_cases heq : g = last
        · rw [heq, hbit]
        · exact hwindow g hg (by omega)
      have hsmall : last - start + 1 < 2 ^ 32 := by
        unfold maxFrames at hlt
        omega
      have hvalue : (BitVec.ofNat 32 (last - start + 1)).toNat = last - start + 1 := by
        rw [BitVec.toNat_ofNat]
        exact Nat.mod_eq_of_lt hsmall
      by_cases hn : BitVec.ofNat 32 (last - start + 1) = n
      · have hlen : last - start + 1 = n.toNat := by rw [← hn, hvalue]
        have hlast : last = start + n.toNat - 1 := by omega
        rw [if_pos hn]
        refine .inl ⟨start, by rw [← hlast]; rfl, ⟨by omega, fun g hg hg' => ?_⟩, hbefore⟩
        exact hwindow' g hg (by omega)
      · have hlen : last - start + 1 ≠ n.toNat := by
          intro heq
          apply hn
          apply BitVec.eq_of_toNat_eq
          rw [hvalue, heq]
        rw [if_neg hn]
        exact ih start (last + 1) (by omega) (by omega) (by omega) hwindow' hbefore

/-- The loop of `pmm_alloc_contiguous` marks the run and nothing else. -/
theorem markFrom_spec (b : Bitmap) (k f : Nat) (hk : f + k ≤ maxFrames) :
    ∃ b', markFrom b k f = .ok b' ∧
      ∀ g, bitAt b' g = (decide (f ≤ g ∧ g < f + k) || bitAt b g) := by
  induction k generalizing b f with
  | zero =>
    refine ⟨b, rfl, fun g => ?_⟩
    simp
  | succ k ih =>
    obtain ⟨b₁, hset, hbits⟩ := setFrame_eq (b := b) (f := f) (by omega)
    obtain ⟨b', hmark, hbits'⟩ := ih b₁ (f + 1) (by omega)
    refine ⟨b', ?_, fun g => ?_⟩
    · rw [markFrom, hset]
      exact hmark
    · rw [hbits' g, hbits g, ← Bool.or_assoc, ← Bool.decide_or]
      congr 2
      apply propext
      constructor
      · rintro (h | h)
        · omega
        · omega
      · intro h
        omega

/-- What `pmm_alloc_contiguous` does: it takes the first free run, if there is one. -/
theorem pmmAllocContiguous_spec (b : Bitmap) {n : U32} (hn : 0 < n.toNat) :
    (∃ s b', pmmAllocContiguous b n = .ok (frameAddr s, b') ∧ FreeRun b n.toNat s ∧
      (∀ s', s' < s → ¬ FreeRun b n.toNat s') ∧
      ∀ g, bitAt b' g = (decide (s ≤ g ∧ g < s + n.toNat) || bitAt b g)) ∨
    (pmmAllocContiguous b n = .ok (noFrame, b) ∧ ∀ s, ¬ FreeRun b n.toNat s) := by
  rcases contiguousFrom_spec b (n := n) maxFrames 0 0 (Nat.zero_add _) (Nat.le_refl 0)
    (by omega) (fun g _ hg => absurd hg (Nat.not_lt_zero g))
    (fun s hs => absurd hs (Nat.not_lt_zero s)) with ⟨s, hfound, hrun, hfirst⟩ | ⟨hnone, hno⟩
  · obtain ⟨b', hmark, hbits⟩ := markFrom_spec b n.toNat s hrun.1
    have hlen : s + n.toNat - 1 - s + 1 = n.toNat := by omega
    refine .inl ⟨s, b', ?_, hrun, hfirst, hbits⟩
    rw [pmmAllocContiguous, hfound, ok_bind]
    dsimp only
    rw [hlen, hmark]
    rfl
  · refine .inr ⟨?_, hno⟩
    rw [pmmAllocContiguous, hnone]
    rfl

/-- `pmm_alloc_contiguous` is first fit: it takes the least run there is, marks it and nothing else,
and fails exactly when there is none. -/
theorem pmmAllocContiguous_firstFit (b : Bitmap) (n : U32) (hn : 0 < n.toNat) :
    ∃ r b', pmmAllocContiguous b n = .ok (r, b') ∧
      (∀ s, FreeRun b n.toNat s → (∀ s', s' < s → ¬ FreeRun b n.toNat s') →
        r.toNat = 4096 * s ∧
          ∀ g, bitAt b' g = true ↔ (s ≤ g ∧ g < s + n.toNat) ∨ bitAt b g = true) ∧
      (r = noFrame ↔ ∀ s, ¬ FreeRun b n.toNat s) ∧
      (r = noFrame → b' = b) := by
  rcases pmmAllocContiguous_spec b hn with ⟨s, b', hcall, hrun, hfirst, hbits⟩ | ⟨hcall, hnone⟩
  · have hlt : s < maxFrames := by
      have hfit := hrun.1
      omega
    refine ⟨frameAddr s, b', hcall, ?_, ?_, fun hno => absurd hno (frameAddr_ne_noFrame hlt)⟩
    · intro s₂ hrun₂ hfirst₂
      -- there is only one least run
      have hs : s₂ = s := by
        rcases Nat.lt_trichotomy s₂ s with hless | heq | hmore
        · exact absurd hrun₂ (hfirst s₂ hless)
        · exact heq
        · exact absurd hrun (hfirst₂ s hmore)
      subst hs
      constructor
      · rw [frameAddr_toNat hlt, Nat.mul_comm]
      · intro g
        rw [hbits g, Bool.or_eq_true, decide_eq_true_iff]
    · constructor
      · intro hno
        exact absurd hno (frameAddr_ne_noFrame hlt)
      · intro hnone
        exact absurd hrun (hnone s)
  · refine ⟨noFrame, b, hcall, ?_, ?_, fun _ => rfl⟩
    · intro s hrun
      exact absurd hrun (hnone s)
    · exact iff_of_true rfl hnone

/-- Frame 0 is used, so a run of two begins at frame 1. -/
theorem pmmAllocContiguous_firstFit_two : ∃ b',
    pmmAllocContiguous (fun i => if i = 0 then 1 else 0) 2 = .ok (4096, b') ∧
      ∀ g, bitAt b' g = true ↔
        (1 ≤ g ∧ g < 3) ∨ bitAt (fun i => if i = 0 then 1 else 0) g = true := by
  obtain ⟨r, b', hcall, hleast, -, -⟩ :=
    pmmAllocContiguous_firstFit (fun i => if i = 0 then 1 else 0) 2 (by decide)
  have hrun : FreeRun (fun i => if i = 0 then 1 else 0) 2 1 := by
    constructor
    · decide
    · intro g hg hg'
      have hcases : g = 1 ∨ g = 2 := by omega
      rcases hcases with rfl | rfl <;> decide
  have hfirst : ∀ s', s' < 1 → ¬ FreeRun (fun i => if i = 0 then 1 else 0) 2 s' := by
    intro s' hs' hfree
    obtain rfl : s' = 0 := by omega
    exact absurd (hfree.2 0 (Nat.le_refl 0) (by decide)) (by decide)
  obtain ⟨haddr, hbits⟩ := hleast 1 hrun hfirst
  have hr : r = 4096 := BitVec.eq_of_toNat_eq haddr
  rw [hr] at hcall
  exact ⟨b', hcall, hbits⟩

/-! ## Counting -/

/-- The frames that are free. -/
def freeFrames (b : Bitmap) : Finset Nat :=
  (Finset.range maxFrames).filter fun f => bitAt b f = false

/-- The counting loop counts the free frames it has passed. -/
theorem freeCountFrom_spec (b : Bitmap) (k f : Nat) (c : U32) (hk : f + k ≤ maxFrames) :
    freeCountFrom b k f c = .ok
      (c + BitVec.ofNat 32 ((Finset.Ico f (f + k)).filter fun g => bitAt b g = false).card) := by
  induction k generalizing f c with
  | zero => simp [freeCountFrom]
  | succ k ih =>
    have hsplit : Finset.Ico f (f + (k + 1)) = insert f (Finset.Ico (f + 1) (f + 1 + k)) := by
      ext g
      simp only [Finset.mem_Ico, Finset.mem_insert]
      omega
    have hout : f ∉ (Finset.Ico (f + 1) (f + 1 + k)).filter fun g => bitAt b g = false := by
      simp
    rw [freeCountFrom, testFrame_eq (by omega), ok_bind, ih (f + 1) _ (by omega), hsplit,
      Finset.filter_insert]
    cases hbit : bitAt b f with
    | true => simp
    | false =>
      rw [if_neg (by decide), if_pos rfl, Finset.card_insert_of_notMem hout,
        BitVec.ofNat_add, BitVec.add_comm (BitVec.ofNat 32 _) (BitVec.ofNat 32 1),
        ← BitVec.add_assoc]
      rfl

/-- `pmm_free_count` is the number of free frames. -/
theorem pmmFreeCount_eq (b : Bitmap) :
    pmmFreeCount b = .ok (BitVec.ofNat 32 (freeFrames b).card) := by
  have hcount := freeCountFrom_spec b maxFrames 0 0 (Nat.le_of_eq (Nat.zero_add _))
  rw [Nat.zero_add, ← Finset.range_eq_Ico] at hcount
  have hzero : ∀ x : U32, 0 + x = x := fun x => BitVec.zero_add x
  rw [pmmFreeCount, hcount, hzero, freeFrames]

theorem freeFrames_card_toNat (b : Bitmap) :
    (BitVec.ofNat 32 (freeFrames b).card).toNat = (freeFrames b).card := by
  have hle : (freeFrames b).card ≤ maxFrames := by
    have hsub := Finset.card_filter_le (Finset.range maxFrames) fun f => bitAt b f = false
    rwa [Finset.card_range] at hsub
  unfold maxFrames at hle
  rw [BitVec.toNat_ofNat]
  exact Nat.mod_eq_of_lt (by omega)

/-! ## Runs of calls -/

/-- The frames that a call handed out: `n` from the address `r` on, none if it failed. -/
def framesOf (r : U32) (n : Nat) : Finset Nat :=
  if r = noFrame then ∅ else Finset.Ico (r.toNat / 4096) (r.toNat / 4096 + n)

theorem framesOf_frameAddr {s n : Nat} (hs : s < maxFrames) :
    framesOf (frameAddr s) n = Finset.Ico s (s + n) := by
  rw [framesOf, if_neg (frameAddr_ne_noFrame hs), frameAddr_toNat hs,
    Nat.mul_div_cancel s (by decide)]

theorem framesOf_noFrame (n : Nat) : framesOf noFrame n = ∅ := if_pos rfl

/-- A run of calls from the bitmap `b₀` has led to `b`; `held` are the frames handed out,
alone or inside a run, and not freed since. Only held frames are freed. -/
inductive PmmRun (b₀ : Bitmap) : Bitmap → Finset Nat → Prop where
  | start : PmmRun b₀ b₀ ∅
  | allocFrame {b b' : Bitmap} {held : Finset Nat} {r : U32} (hrun : PmmRun b₀ b held)
    (hcall : pmmAllocFrame b = .ok (r, b')) : PmmRun b₀ b' (held ∪ framesOf r 1)
  | allocContiguous {b b' : Bitmap} {held : Finset Nat} {r n : U32} (hrun : PmmRun b₀ b held)
    (hn : 1 ≤ n.toInt) (hcall : pmmAllocContiguous b n = .ok (r, b')) :
    PmmRun b₀ b' (held ∪ framesOf r n.toNat)
  | freeFrame {b b' : Bitmap} {held : Finset Nat} {f : Nat} (hrun : PmmRun b₀ b held)
    (hheld : f ∈ held) (hcall : pmmFreeFrame b (frameAddr f) = .ok b') :
    PmmRun b₀ b' (held.erase f)

/-- The invariant: a frame is in use because it was at the start, or because it is held,
never both. -/
structure Owned (b₀ b : Bitmap) (held : Finset Nat) : Prop where
  used_iff : ∀ f, f < maxFrames → (bitAt b f = true ↔ bitAt b₀ f = true ∨ f ∈ held)
  held_lt : ∀ f ∈ held, f < maxFrames
  held_free : ∀ f ∈ held, bitAt b₀ f = false

/-- What a successful call hands out: a run of frames below 128 MiB that nobody holds and
that were free at the start. -/
structure Grants (b₀ : Bitmap) (held : Finset Nat) (r : U32) (n : Nat) : Prop where
  aligned : 4096 ∣ r.toNat
  below : r.toNat + 4096 * n ≤ 128 * 1024 * 1024
  fresh : ∀ f ∈ framesOf r n, f ∉ held ∧ bitAt b₀ f = false

section Invariant

variable {b₀ b : Bitmap} {held : Finset Nat}

theorem Owned.free (h : Owned b₀ b held) {f : Nat} (hf : f < maxFrames)
    (hfree : bitAt b f = false) : f ∉ held ∧ bitAt b₀ f = false := by
  have hunused : ¬ (bitAt b₀ f = true ∨ f ∈ held) := by
    rw [← h.used_iff f hf, hfree]
    decide
  rw [not_or, Bool.not_eq_true] at hunused
  exact ⟨hunused.2, hunused.1⟩

/-- Handing out a free run keeps the invariant. -/
theorem Owned.grant (h : Owned b₀ b held) {b' : Bitmap} {s n : Nat} (hrun : FreeRun b n s)
    (hbits : ∀ g, bitAt b' g = (decide (s ≤ g ∧ g < s + n) || bitAt b g)) :
    Owned b₀ b' (held ∪ Finset.Ico s (s + n)) := by
  refine ⟨fun f hf => ?_, fun f hf => ?_, fun f hf => ?_⟩
  · rw [hbits f, Bool.or_eq_true, decide_eq_true_eq, h.used_iff f hf, Finset.mem_union,
      Finset.mem_Ico]
    constructor
    · rintro (hmem | hstart | hheld)
      · exact .inr (.inr hmem)
      · exact .inl hstart
      · exact .inr (.inl hheld)
    · rintro (hstart | hheld | hmem)
      · exact .inr (.inl hstart)
      · exact .inr (.inr hheld)
      · exact .inl hmem
  · rcases Finset.mem_union.mp hf with hf | hf
    · exact h.held_lt f hf
    · have hfit := hrun.1
      rw [Finset.mem_Ico] at hf
      omega
  · rcases Finset.mem_union.mp hf with hf | hf
    · exact h.held_free f hf
    · have hfit := hrun.1
      rw [Finset.mem_Ico] at hf
      exact (h.free (by omega) (hrun.2 f hf.1 hf.2)).2

theorem Owned.grants (h : Owned b₀ b held) {s n : Nat} (hn : 0 < n) (hrun : FreeRun b n s) :
    Grants b₀ held (frameAddr s) n := by
  have hfit := hrun.1
  have hs : s < maxFrames := by omega
  refine ⟨?_, ?_, fun f hf => ?_⟩
  · rw [frameAddr_toNat hs]
    exact Nat.dvd_mul_left 4096 s
  · rw [frameAddr_toNat hs]
    unfold maxFrames at hfit
    omega
  · rw [framesOf_frameAddr hs, Finset.mem_Ico] at hf
    exact h.free (by omega) (hrun.2 f hf.1 hf.2)

/-- `pmm_alloc_frame`, as a run of length one. -/
theorem pmmAllocFrame_spec (b : Bitmap) :
    (∃ s b', pmmAllocFrame b = .ok (frameAddr s, b') ∧ FreeRun b 1 s ∧
      ∀ g, bitAt b' g = (decide (s ≤ g ∧ g < s + 1) || bitAt b g)) ∨
    (pmmAllocFrame b = .ok (noFrame, b) ∧ ∀ g, g < maxFrames → bitAt b g = true) := by
  rcases allocFrameFrom_spec b maxFrames 0 (Nat.zero_add _) with
    ⟨f, b', -, hf, hfree, -, halloc, hbits⟩ | ⟨hused, halloc⟩
  · have honly : ∀ g, f ≤ g ∧ g < f + 1 ↔ g = f := fun g => by omega
    refine .inl ⟨f, b', halloc, ⟨hf, fun g hg hg' => ?_⟩, fun g => ?_⟩
    · rw [(honly g).mp ⟨hg, hg'⟩, hfree]
    · rw [hbits g]
      simp only [honly]
  · exact .inr ⟨halloc, fun g hg => hused g (Nat.zero_le g) hg⟩

/-- Every call keeps the invariant. -/
theorem PmmRun.owned (h : PmmRun b₀ b held) : Owned b₀ b held := by
  induction h with
  | start =>
    refine ⟨fun f hf => ?_, fun f hf => ?_, fun f hf => ?_⟩
    · simp
    · exact absurd hf (Finset.notMem_empty f)
    · exact absurd hf (Finset.notMem_empty f)
  | @allocFrame b b' held r _ hcall ih =>
    rcases pmmAllocFrame_spec b with ⟨s, b₁, halloc, hrun, hbits⟩ | ⟨halloc, _⟩
    · rw [halloc] at hcall
      cases hcall
      rw [framesOf_frameAddr hrun.1]
      exact ih.grant hrun hbits
    · rw [halloc] at hcall
      cases hcall
      -- no frame left: the answer names none
      rwa [framesOf_noFrame, Finset.union_empty]
  | @allocContiguous b b' held r n _ hn hcall ih =>
    have hpos : 0 < n.toNat := by
      rw [BitVec.toInt_eq_toNat_cond] at hn
      split at hn <;> omega
    rcases pmmAllocContiguous_spec b hpos with ⟨s, b₁, halloc, hrun, -, hbits⟩ | ⟨halloc, _⟩
    · rw [halloc] at hcall
      cases hcall
      have hfit := hrun.1
      rw [framesOf_frameAddr (by omega)]
      exact ih.grant hrun hbits
    · rw [halloc] at hcall
      cases hcall
      rwa [framesOf_noFrame, Finset.union_empty]
  | @freeFrame b b' held f _ hheld hcall ih =>
    have hf := ih.held_lt f hheld
    obtain ⟨b₁, hclear, hbits⟩ := clearFrame_eq (b := b) hf
    rw [pmmFreeFrame, frameAddr_toNat hf, Nat.mul_div_cancel f (by decide), hclear] at hcall
    cases hcall
    refine ⟨fun g hg => ?_, fun g hg => ih.held_lt g (Finset.mem_of_mem_erase hg),
      fun g hg => ih.held_free g (Finset.mem_of_mem_erase hg)⟩
    rw [hbits g, Bool.and_eq_true, Bool.not_eq_true', decide_eq_false_iff_not,
      ih.used_iff g hg, Finset.mem_erase]
    constructor
    · rintro ⟨hne, hstart | hmem⟩
      · exact .inl hstart
      · exact .inr ⟨hne, hmem⟩
    · rintro (hstart | ⟨hne, hmem⟩)
      · -- a held frame was free at the start
        refine ⟨?_, .inl hstart⟩
        rintro rfl
        rw [ih.held_free g hheld] at hstart
        cases hstart
      · exact ⟨hne, .inr hmem⟩

/-- The free frames and the held ones make up the frames free at the start. -/
theorem Owned.card (h : Owned b₀ b held) :
    (freeFrames b).card + held.card = (freeFrames b₀).card := by
  have hdisjoint : Disjoint (freeFrames b) held := by
    rw [Finset.disjoint_left]
    intro f hf hheld
    obtain ⟨hlt, hfree⟩ := Finset.mem_filter.mp hf
    exact (h.free (Finset.mem_range.mp hlt) hfree).1 hheld
  rw [← Finset.card_union_of_disjoint hdisjoint]
  congr 1
  ext f
  rw [Finset.mem_union, freeFrames, freeFrames, Finset.mem_filter, Finset.mem_filter,
    Finset.mem_range]
  constructor
  · rintro (⟨hlt, hfree⟩ | hheld)
    · exact ⟨hlt, (h.free hlt hfree).2⟩
    · exact ⟨h.held_lt f hheld, h.held_free f hheld⟩
  · rintro ⟨hlt, hstart⟩
    by_cases hheld : f ∈ held
    · exact .inr hheld
    · refine .inl ⟨hlt, ?_⟩
      rw [← Bool.not_eq_true, h.used_iff f hlt, not_or, Bool.not_eq_true]
      exact ⟨hstart, hheld⟩

/-- **Frame ownership.** After every run of calls the used frames are those used at the
start and those held, the free count has gone down by the number of held frames, and the
next call goes through: it hands out only aligned frames below 128 MiB that nobody holds
and that were free at the start. -/
theorem pmmRun_owned (h : PmmRun b₀ b held) :
    (∀ f, f < maxFrames → (bitAt b f = true ↔ bitAt b₀ f = true ∨ f ∈ held)) ∧
    (∃ c₀ c, pmmFreeCount b₀ = .ok c₀ ∧ pmmFreeCount b = .ok c ∧
      c.toNat + held.card = c₀.toNat) ∧
    (∃ r b', pmmAllocFrame b = .ok (r, b') ∧ (r ≠ noFrame → Grants b₀ held r 1)) ∧
    (∀ n : U32, 1 ≤ n.toInt → ∃ r b', pmmAllocContiguous b n = .ok (r, b') ∧
      (r ≠ noFrame → Grants b₀ held r n.toNat)) ∧
    (∀ f ∈ held, ∃ b', pmmFreeFrame b (frameAddr f) = .ok b') := by
  have howned := h.owned
  refine ⟨howned.used_iff, ?_, ?_, fun n hn => ?_, fun f hf => ?_⟩
  · refine ⟨_, _, pmmFreeCount_eq b₀, pmmFreeCount_eq b, ?_⟩
    rw [freeFrames_card_toNat, freeFrames_card_toNat]
    exact howned.card
  · rcases pmmAllocFrame_spec b with ⟨s, b', halloc, hrun, -⟩ | ⟨halloc, -⟩
    · exact ⟨_, b', halloc, fun _ => howned.grants Nat.one_pos hrun⟩
    · exact ⟨_, b, halloc, fun hr => absurd rfl hr⟩
  · have hpos : 0 < n.toNat := by
      rw [BitVec.toInt_eq_toNat_cond] at hn
      split at hn <;> omega
    rcases pmmAllocContiguous_spec b hpos with ⟨s, b', halloc, hrun, -, -⟩ | ⟨halloc, -⟩
    · exact ⟨_, b', halloc, fun _ => howned.grants hpos hrun⟩
    · exact ⟨_, b, halloc, fun hr => absurd rfl hr⟩
  · have hlt := howned.held_lt f hf
    obtain ⟨b', hclear, -⟩ := clearFrame_eq (b := b) hlt
    refine ⟨b', ?_⟩
    rw [pmmFreeFrame, frameAddr_toNat hlt, Nat.mul_div_cancel f (by decide), hclear]

end Invariant

/-- Three calls on a bitmap with only frame 0 in use: a frame, a run of two, and the first
frame freed again. Frames 2 and 3 are held, and two frames fewer are free. -/
theorem pmmRun_owned_three : ∃ b, PmmRun (fun i => if i = 0 then 1 else 0) b {2, 3} ∧
    ∃ c₀ c, pmmFreeCount (fun i => if i = 0 then 1 else 0) = .ok c₀ ∧
      pmmFreeCount b = .ok c ∧ c.toNat + 2 = c₀.toNat := by
  have hstart : PmmRun (fun i => if i = 0 then 1 else 0) (fun i => if i = 0 then 1 else 0) ∅ :=
    .start
  have hframe := hstart.allocFrame (r := frameAddr 1) rfl
  have hrun := hframe.allocContiguous (r := frameAddr 2) (n := 2) (by decide) rfl
  have hfree := hrun.freeFrame (f := 1) (by decide) rfl
  have hheld : (∅ ∪ framesOf (frameAddr 1) 1 ∪ framesOf (frameAddr 2) (2 : U32).toNat).erase 1
      = {2, 3} := by decide
  rw [hheld] at hfree
  exact ⟨_, hfree, (pmmRun_owned hfree).2.1⟩

end Pelikan

end SystemsProjects

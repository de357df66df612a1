import SystemsProjects.Pelikan.HeapRuns

/-!
# Calls on a well-formed heap

What one call of `kmalloc` or `kfree` does to a heap whose list is linked both ways, is coherent
and tiles the frames of the heap.

- `WellFormed`: such a heap, with its list of blocks.
- `kmalloc_firstFit`: the first block that fits serves the request, or a new frame when there is
  none. `kmalloc` does not look at `prev`, so nothing is asked of these words.
- `kfree_wellFormed`: the freed block is joined with the free block that follows it on the list and
  in memory, and with the free block in front of it on the list and in memory. A neighbour on the
  list that touches it from the other side is left alone (`not_kfree_joins_turned`).
- `double_free_diagnosed`: the header of a freed block keeps its magic number through further calls
  of `kfree`, inside whatever block it has become part of.

The results are about one call at a time. What `kmalloc` promises follows from the search and
from the split, what `kfree` promises from the two joins, of which each may or may not take
place (`FreedBlock`). For the double free the question is how long the header of a freed block
stays readable: joining leaves it where it was, inside the joined block (`FreedAt.joined`).
-/

namespace SystemsProjects

namespace Pelikan

/-- The list from `head` is `l`, linked both ways, and tiles the frames of the heap. -/
structure WellFormed (h : Heap) (l : List Block) (frames : Finset Nat) : Prop where
  shape : Shape h l frames
  backed : Backed h 0 l

section

variable {h h' k : Heap} {b c : Block} {l l' pre post : List Block} {frames : Finset Nat}
  {size a p : Nat}

/-! ## `kmalloc` -/

/-- Where the block comes from that serves a request, and which frames and which bitmap the heap
has then: the first block on the list that fits, or one new frame when none does. -/
inductive FirstFit (h : Heap) (l : List Block) (frames : Finset Nat) (size : Nat) :
    Nat → Bitmap → Finset Nat → Prop where
  | onList {pre post : List Block} {b : Block} (hl : l = pre ++ ([b] ++ post))
      (hpre : ∀ c ∈ pre, ¬ c.Fits size) (hfits : b.Fits size) :
      FirstFit h l frames size b.addr h.bitmap frames
  | newFrame {f : Nat} {bitmap : Bitmap} (hnone : ∀ c ∈ l, ¬ c.Fits size) (hf : f ∉ frames)
      (hfree : bitAt h.bitmap f = false)
      (hbits : ∀ g, bitAt bitmap g = (decide (g = f) || bitAt h.bitmap g)) :
      FirstFit h l frames size (f * 4096) bitmap (insert f frames)

/-- The block at `a` has served the request: it is on the list, in use and not much too large, the
blocks tile the frames, and those that were in use are as they were. -/
structure ServedAt (h : Heap) (l : List Block) (size a : Nat) (h' : Heap) (l' : List Block)
    (frames' : Finset Nat) : Prop where
  block : ∃ b ∈ l', b.addr = a ∧ b.free = false ∧ size ≤ b.size ∧ b.size ≤ size + blockSize
  shape : Shape h' l' frames'
  kept : ∀ c ∈ l, c.free = false → c ∈ l' ∧ PayloadKept h h' c

/-- What becomes of a block that fits is in use, and at most a header too large. -/
theorem exists_taken_le (hsize : size ≤ b.size) :
    ∃ c ∈ b.taken size, c.addr = b.addr ∧ c.free = false ∧ size ≤ c.size ∧
      c.size ≤ size + blockSize := by
  unfold Block.taken
  by_cases hcuts : b.Cuts size
  · rw [if_pos hcuts]
    exact ⟨_, List.mem_cons_self .., rfl, rfl, Nat.le_refl _, Nat.le_add_right ..⟩
  · rw [if_neg hcuts]
    refine ⟨_, List.mem_cons_self .., rfl, rfl, hsize, ?_⟩
    -- the third branch of the fit test: too small to be cut
    have hcut : ¬ size + blockSize + 1 ≤ b.size := hcuts
    show b.size ≤ size + blockSize
    omega

/-- What `kmalloc` does with a block that fits. -/
theorem Shape.servedAt (hs : Shape h (pre ++ ([b] ++ post)) frames) (hpos : 0 < size)
    (hfits : b.Fits size) :
    ServedAt h (pre ++ ([b] ++ post)) size b.addr (Pelikan.allocated h b size)
      (pre ++ (b.taken size ++ post)) frames where
  block := by
    obtain ⟨c, hc, hrest⟩ := exists_taken_le hfits.2
    exact ⟨c, List.mem_append_right _ (List.mem_append_left _ hc), hrest⟩
  shape := hs.allocated hpos
  kept c hc hfree := by
    have hb : b ∈ pre ++ ([b] ++ post) := List.mem_append_right _ (List.mem_cons_self ..)
    have hne : c ≠ b := by
      rintro rfl
      rw [hfits.1] at hfree
      cases hfree
    exact ⟨mem_taken hc hne, payloadKept_allocated hs hb hc hne⟩

/-- `kmalloc` on any heap whose list tiles its frames. -/
theorem kmalloc_firstFit (hs : Shape h l frames) (hpos : 1 ≤ size) (hsize : size ≤ 4096 - blockSize)
    (hfresh : (∀ c ∈ l, ¬ c.Fits size) → frameLeft h.bitmap = true) :
    ∃ a h' l' frames', Yields (kmalloc h size) (a + blockSize, h') ∧
      FirstFit h l frames size a h'.bitmap frames' ∧ ServedAt h l size a h' l' frames' := by
  rcases exists_first_fit l size with hnone | ⟨pre, b, post, rfl, hpre, hfits⟩
  · obtain ⟨f, bitmap, hf, hlt, hfpos, hfree, -, hbits, hcall⟩ :=
      kmalloc_grow hs hpos hsize hnone (hfresh hnone)
    have hgrown : Shape (grownHeap h l f bitmap) (l ++ ([frameBlock f] ++ [])) (insert f frames) :=
      hs.grow hf hlt hfpos hbits
    have hserved := hgrown.servedAt hpos (frameBlock_fits hsize)
    refine ⟨_, _, _, _, hcall, ?_, hserved.block, hserved.shape, ?_⟩
    · rw [allocated_bitmap, grownHeap_bitmap]
      exact .newFrame hnone hf hfree hbits
    · intro c hc hlive
      obtain ⟨hmem, hkept⟩ := hserved.kept c (List.mem_append_left _ hc) hlive
      exact ⟨hmem, (payloadKept_grow hs hf hlt hc).trans hkept⟩
  · refine ⟨_, _, _, _, kmalloc_fit hs hpos hsize hpre hfits, ?_, hs.servedAt hpos hfits⟩
    rw [allocated_bitmap]
    exact .onList rfl hpre hfits

/-- The empty heap. -/
def emptyHeap : Heap := bootState.heap

theorem emptyHeap_shape : Shape emptyHeap [] ∅ := bootState_start.described.shape

/-! ## `kfree` -/

/-- The bytes that the blocks of the list take up. -/
def totalSize (l : List Block) : Nat := (l.map fun b => blockSize + b.size).sum

theorem totalSize_append (l₁ l₂ : List Block) :
    totalSize (l₁ ++ l₂) = totalSize l₁ + totalSize l₂ := by
  simp [totalSize]

/-- A join keeps the sum: the header of the second block is counted. -/
theorem Joined.totalSize (hj : Joined h l h' l') : totalSize l' = totalSize l := by
  cases hj with
  | same => rfl
  | @merge pre post x y hl hx hy htouch =>
    rw [hl]
    simp only [totalSize_append]
    have hpair : Pelikan.totalSize [x.join y] = Pelikan.totalSize [x, y] := by
      simp only [Pelikan.totalSize, Block.join, List.map_cons, List.map_nil, List.sum_cons,
        List.sum_nil]
      omega
    rw [hpair]

/-- What comes out of joining with the block behind holds both. -/
theorem JoinsNext.holds {b₁ : Block} {post₁ : List Block} (hj : JoinsNext b post b₁ post₁) :
    b₁.addr = b.addr ∧ b.stop ≤ b₁.stop ∧
      ∀ n ∈ post.head?, n.free = true → b.stop = n.addr → b₁.addr ≤ n.addr ∧ n.stop ≤ b₁.stop := by
  rcases hj with ⟨n, rfl, -, htouch, rfl⟩ | ⟨-, rfl, hno⟩
  · have hstop := Block.join_stop htouch
    have haddr : (b.join n).addr = b.addr := rfl
    refine ⟨rfl, ?_, ?_⟩
    · rw [hstop, htouch]
      unfold Block.stop
      omega
    · intro n' hn' _ htouch'
      obtain rfl : n = n' := Option.some.inj hn'
      rw [hstop, haddr, ← htouch]
      unfold Block.stop
      omega
  · refine ⟨rfl, Nat.le_refl _, fun n hn hfree htouch => ?_⟩
    cases post with
    | nil => cases hn
    | cons n' rest =>
      obtain rfl : n' = n := Option.some.inj hn
      exact absurd htouch (hno n' rest rfl hfree)

/-- And with the block in front. -/
theorem JoinsPrev.holds {b₁ : Block} {pre₁ : List Block} (hj : JoinsPrev pre b pre₁ b₁) :
    b₁.addr ≤ b.addr ∧ b₁.stop = b.stop ∧
      ∀ p ∈ pre.getLast?, p.free = true → p.stop = b.addr →
        b₁.addr ≤ p.addr ∧ p.stop ≤ b₁.stop := by
  rcases hj with ⟨p, rfl, -, htouch, rfl⟩ | ⟨-, rfl, hno⟩
  · have hstop := Block.join_stop htouch
    have haddr : (p.join b).addr = p.addr := rfl
    refine ⟨?_, hstop, ?_⟩
    · rw [haddr, ← htouch]
      unfold Block.stop
      omega
    · intro p' hp' _ _
      rw [List.getLast?_concat] at hp'
      obtain rfl : p = p' := Option.some.inj hp'
      rw [hstop, haddr, htouch]
      unfold Block.stop
      omega
  · refine ⟨Nat.le_refl _, rfl, fun p hp hfree htouch => ?_⟩
    obtain ⟨rest, rfl⟩ := List.getLast?_eq_some_iff.mp hp
    exact absurd htouch (hno rest p rfl hfree)

/-- What is asked of `kfree`: the block `b'` on the new list is free, holds the old block, and holds
each neighbour that was free and touched it in the order of the list. -/
structure Coalesced (pre : List Block) (b : Block) (post : List Block) (b' : Block) : Prop where
  free : b'.free = true
  holds : b'.addr ≤ b.addr ∧ b.stop ≤ b'.stop
  next : ∀ n ∈ post.head?, n.free = true → b.stop = n.addr → b'.addr ≤ n.addr ∧ n.stop ≤ b'.stop
  prev : ∀ p ∈ pre.getLast?, p.free = true → p.stop = b.addr → b'.addr ≤ p.addr ∧ p.stop ≤ b'.stop

/-- The freed block with the neighbours it was joined to. -/
theorem FreedBlock.coalesced {pre' post' : List Block} {b' : Block}
    (hf : FreedBlock h frames pre b post pre' b' post') : Coalesced pre b post b' := by
  obtain ⟨b₁, hnext, hprev, -⟩ := hf.next
  obtain ⟨haddr₁, hstop₁, hholds₁⟩ := hnext.holds
  obtain ⟨haddr', hstop', hholds'⟩ := hprev.holds
  have haddr : b₁.addr = b.addr := haddr₁
  have hstop : b.stop ≤ b₁.stop := hstop₁
  constructor
  · exact hf.free
  · constructor
    · omega
    · omega
  · intro n hn hfree htouch
    obtain ⟨hge, hle⟩ := hholds₁ n hn hfree htouch
    constructor
    · omega
    · omega
  · intro p hp hfree htouch
    exact hholds' p hp hfree (by omega)

theorem FreedBlock.totalSize {pre' post' : List Block} {b' : Block}
    (hf : FreedBlock h frames pre b post pre' b' post') :
    totalSize (pre' ++ ([b'] ++ post')) = totalSize (pre ++ ([b] ++ post)) := by
  obtain ⟨b₁, -, -, k, hjoined, -, hjoined'⟩ := hf.next
  rw [hjoined'.totalSize, hjoined.totalSize, totalSize_append, totalSize_append, totalSize_append,
    totalSize_append]
  rfl

theorem WellFormed.freedBlock (hw : WellFormed h (pre ++ ([b] ++ post)) frames) :
    ∃ pre' b' post', FreedBlock h frames pre b post pre' b' post' :=
  kfree_freedBlock hw.shape (backed_append.mp hw.backed).2.1

/-- `kfree` on a well-formed heap. -/
theorem kfree_wellFormed (hw : WellFormed h (pre ++ ([b] ++ post)) frames) :
    ∃ l' b', WellFormed (kfree h (b.addr + blockSize)) l' frames ∧
      totalSize l' = totalSize (pre ++ ([b] ++ post)) ∧
      (∀ c ∈ pre ++ post, c.free = false →
        c ∈ l' ∧ PayloadKept h (kfree h (b.addr + blockSize)) c) ∧
      b' ∈ l' ∧ Coalesced pre b post b' := by
  obtain ⟨pre', b', post', hfreed⟩ := hw.freedBlock
  have hmem : b' ∈ pre' ++ ([b'] ++ post') := List.mem_append_right _ (List.mem_cons_self ..)
  refine ⟨_, b', ⟨hfreed.shape, hfreed.backed hw.backed⟩, hfreed.totalSize, ?_, hmem,
    hfreed.coalesced⟩
  intro c hc hfree
  obtain ⟨hkeep, hpayload⟩ := hfreed.kept c hc hfree
  exact ⟨mem_middle hkeep _, hpayload⟩

/-! ## A neighbour on the other side -/

/-- The blocks of a list are told by their addresses. -/
theorem Linked.eq_of_addrs {e e' : Nat} (hl : Linked h l e) (hl' : Linked h l' e')
    (haddr : l.map Block.addr = l'.map Block.addr) : l = l' := by
  induction l generalizing l' with
  | nil => exact (List.map_eq_nil_iff.mp haddr.symm).symm
  | cons b l ih =>
    cases l' with
    | nil => cases haddr
    | cons b' l' =>
      obtain ⟨hb, hrest⟩ := List.cons.inj haddr
      have hsize : b.size = b'.size := by
        rw [← hl.1.size, ← hl'.1.size, hb]
      have hflag : b.flag = b'.flag := by
        rw [← hl.1.free, ← hl'.1.free, hb]
      have hfree : b.free = b'.free := by
        rw [Bool.eq_iff_iff, ← flag_eq_one_iff, ← flag_eq_one_iff, hflag]
      rw [ih hl.2 hl'.2 hrest]
      cases b
      cases b'
      simp only at hb hsize hfree
      rw [hb, hsize, hfree]

/-- The list of a heap is its only one. -/
theorem Shape.unique {frames' : Finset Nat} (hs : Shape h l frames) (hs' : Shape h l' frames') :
    l = l' :=
  hs.linked.eq_of_addrs hs'.linked (hs.nextPath.unique hs'.nextPath)

/-- A bitmap with one more frame in use. -/
def markFrame (b : Bitmap) (f : Nat) : Bitmap :=
  Function.update b (f / 8) (b (f / 8) ||| bitMask f)

/-- Frame 301, in use. -/
def turnedBlock : Block := ⟨1232896, 4076, false⟩

/-- A frame in use, and behind it on the list the free frame in front of it in memory. -/
def turnedHeap : Heap :=
  let h := grownHeap emptyHeap [] 301 (markFrame emptyHeap.bitmap 301)
  let h := allocated h (frameBlock 301) 4076
  grownHeap h [turnedBlock] 300 (markFrame h.bitmap 300)

theorem turnedHeap_wellFormed :
    WellFormed turnedHeap ([] ++ ([turnedBlock] ++ [frameBlock 300])) {300, 301} := by
  have hempty : Backed emptyHeap 0 [] := trivial
  have hgrown := emptyHeap_shape.grow (f := 301) (by decide) (by decide) (by decide)
    (bitAt_or_mask emptyHeap.bitmap 301)
  have hback : Backed (grownHeap emptyHeap [] 301 (markFrame emptyHeap.bitmap 301)) 0
      ([] ++ ([frameBlock 301] ++ [])) :=
    hempty.grow emptyHeap_shape (f := 301) (by decide) (by decide)
  have hgrown : Shape (grownHeap emptyHeap [] 301 (markFrame emptyHeap.bitmap 301))
      ([] ++ ([frameBlock 301] ++ [])) {301} := hgrown
  have htaken : Shape (allocated (grownHeap emptyHeap [] 301 (markFrame emptyHeap.bitmap 301))
      (frameBlock 301) 4076) [turnedBlock] {301} := hgrown.allocated (by decide)
  have hback' : Backed (allocated (grownHeap emptyHeap [] 301 (markFrame emptyHeap.bitmap 301))
      (frameBlock 301) 4076) 0 [turnedBlock] :=
    hback.allocated hgrown (by decide) fun _ => rfl
  constructor
  · exact htaken.grow (f := 300) (by decide) (by decide) (by decide) (bitAt_or_mask _ 300)
  · exact hback'.grow htaken (f := 300) (by decide) (by decide)

/-- The search passes the block in use, which is kept, and the free frame behind it is cut. -/
theorem kmalloc_firstFit_turned : ∃ a h' l' frames',
    Yields (kmalloc turnedHeap 100) (a + blockSize, h') ∧
      FirstFit turnedHeap [turnedBlock, frameBlock 300] {300, 301} 100 a h'.bitmap frames' ∧
      ServedAt turnedHeap [turnedBlock, frameBlock 300] 100 a h' l' frames' := by
  refine kmalloc_firstFit turnedHeap_wellFormed.shape (by decide) (by decide) fun hnone => ?_
  have hin : frameBlock 300 ∈ [turnedBlock, frameBlock 300] := by simp
  exact absurd (frameBlock_fits (by decide)) (hnone _ hin)

/-- Freed, the block stays apart from the free frame in front of it. -/
theorem kfree_turned : WellFormed (kfree turnedHeap (turnedBlock.addr + blockSize))
    [⟨1232896, 4076, true⟩, frameBlock 300] {300, 301} := by
  have hw := turnedHeap_wellFormed
  obtain ⟨pre₁, b₂, post₁, hfreed⟩ := hw.freedBlock
  obtain ⟨b₁, hnext, hprev, -⟩ := hfreed.next
  have hsame : pre₁ = [] ∧ b₂ = ⟨1232896, 4076, true⟩ ∧ post₁ = [frameBlock 300] := by
    rcases hnext with ⟨n, hn, -, htouch, -⟩ | ⟨rfl, rfl, -⟩
    · obtain ⟨rfl, -⟩ := List.cons.inj hn
      exact absurd htouch (by decide)
    · rcases hprev with ⟨p, hp, -⟩ | ⟨rfl, rfl, -⟩
      · exact absurd hp (by simp)
      · exact ⟨rfl, rfl, rfl⟩
  obtain ⟨rfl, rfl, rfl⟩ := hsame
  exact ⟨hfreed.shape, hfreed.backed hw.backed⟩

/-- `kfree` joins no block with one that follows it on the list and lies in front of it in
memory: behind the call both blocks are on the list as they were. -/
theorem not_kfree_joins_turned :
    (WellFormed turnedHeap ([] ++ ([turnedBlock] ++ [frameBlock 300])) {300, 301} ∧
      (frameBlock 300).free = true ∧ (frameBlock 300).stop = turnedBlock.addr ∧
      WellFormed (kfree turnedHeap (turnedBlock.addr + blockSize))
        [⟨turnedBlock.addr, turnedBlock.size, true⟩, frameBlock 300] {300, 301}) ∧
    ¬ ∀ h frames pre b post, WellFormed h (pre ++ ([b] ++ post)) frames → b.free = false →
      ∃ l' b', WellFormed (kfree h (b.addr + blockSize)) l' frames ∧ b' ∈ l' ∧ b'.free = true ∧
        b'.addr ≤ b.addr ∧ b.stop ≤ b'.stop ∧
        ∀ n, n ∈ post.head? ∨ n ∈ pre.getLast? → n.free = true →
          b.stop = n.addr ∨ n.stop = b.addr → b'.addr ≤ n.addr ∧ n.stop ≤ b'.stop := by
  refine ⟨⟨turnedHeap_wellFormed, rfl, rfl, kfree_turned⟩, fun hall => ?_⟩
  obtain ⟨l', b', hw', hmem, -, -, hstop, hholds⟩ := hall _ _ _ _ _ turnedHeap_wellFormed rfl
  obtain ⟨haddr, -⟩ := hholds (frameBlock 300) (.inl rfl) rfl (.inr rfl)
  rw [← kfree_turned.shape.unique hw'.shape] at hmem
  have hcases : b' = ⟨1232896, 4076, true⟩ ∨ b' = frameBlock 300 := by simpa using hmem
  rcases hcases with rfl | rfl
  · exact absurd haddr (by decide)
  · exact absurd hstop (by decide)

/-- The freed block behind the call holds the old one, whatever lies in front of it. -/
theorem kfree_wellFormed_turned : ∃ l' b',
    WellFormed (kfree turnedHeap (turnedBlock.addr + blockSize)) l' {300, 301} ∧
      totalSize l' = totalSize ([] ++ ([turnedBlock] ++ [frameBlock 300])) ∧
      (∀ c ∈ [] ++ [frameBlock 300], c.free = false →
        c ∈ l' ∧ PayloadKept turnedHeap (kfree turnedHeap (turnedBlock.addr + blockSize)) c) ∧
      b' ∈ l' ∧ Coalesced [] turnedBlock [frameBlock 300] b' :=
  kfree_wellFormed turnedHeap_wellFormed

/-! ## Freed headers -/

/-- At `a` is a header with the magic number of free blocks, and it lies in a free block: it is the
header of that block, or dead bytes of its payload. -/
def FreedAt (h : Heap) (l : List Block) (a : Nat) : Prop :=
  h.get a .magic = heapMagicFree ∧
    ∃ c ∈ l, c.free = true ∧ (a = c.addr ∨ c.addr + blockSize ≤ a) ∧ a + blockSize ≤ c.stop

/-- What keeps the magic numbers and the payloads of the free blocks keeps the freed headers in
them. -/
theorem get_magic_of_kept (hs : Shape h l frames) (hc : c ∈ l)
    (hin : a = c.addr ∨ c.addr + blockSize ≤ a) (hend : a + blockSize ≤ c.stop)
    (hmagic : h'.get c.addr .magic = h.get c.addr .magic) (hkept : PayloadKept h h' c) :
    h'.get a .magic = h.get a .magic := by
  have hbounds := (hs.bounds hc).2
  rcases hin with rfl | hin
  · exact hmagic
  · exact get_congr (by omega) fun x hx hx' => hkept x (by omega) (by omega)

/-- A free block stays free when another is marked. -/
theorem FreedAt.marked (hs : Shape h (pre ++ ([b] ++ post)) frames) (hlive : b.free = false)
    (ha : FreedAt h (pre ++ ([b] ++ post)) a) :
    FreedAt (marked h b.addr) (pre ++ ([{ b with free := true }] ++ post)) a := by
  obtain ⟨hmagic, c, hc, hfree, hin, hend⟩ := ha
  have hb : b ∈ pre ++ ([b] ++ post) := List.mem_append_right _ (List.mem_cons_self ..)
  have hne : c ≠ b := by
    rintro rfl
    rw [hlive] at hfree
    cases hfree
  have hside : c ∈ pre ++ post := mem_others hc hne
  constructor
  · rw [get_magic_of_kept hs hc hin hend (marked_get hs hb hc hne .magic)
      (payloadKept_marked hs hb hc), hmagic]
  · exact ⟨c, mem_middle hside _, hfree, hin, hend⟩

/-- The block that has just been marked. -/
theorem freedAt_marked (h : Heap) (pre post : List Block) (b : Block) :
    FreedAt (Pelikan.marked h b.addr) (pre ++ ([{ b with free := true }] ++ post)) b.addr := by
  constructor
  · exact get_set_self heapMagic_lt.2
  · refine ⟨{ b with free := true }, List.mem_append_right _ (List.mem_cons_self ..), rfl,
      .inl rfl, ?_⟩
    exact Nat.le_add_right ..

/-- Merging two free blocks leaves the headers in free blocks alone, that of the second one too. -/
theorem FreedAt.joined (hs : Shape h l frames) (hj : Joined h l h' l') (ha : FreedAt h l a) :
    FreedAt h' l' a := by
  obtain ⟨hmagic, c, hc, hfree, hin, hend⟩ := ha
  cases hj with
  | same => exact ⟨hmagic, c, hc, hfree, hin, hend⟩
  | @merge pre post x y hl hx hy htouch =>
    subst hl
    have hkeep : (mergeNext h x.addr y.addr).get c.addr .magic = h.get c.addr .magic := by
      by_cases hcx : c = x
      · subst hcx
        have hjoin := (hs.mergeNext_header htouch).1.magic
        have hold := (hs.pair_headers).1.magic
        exact hjoin.trans hold.symm
      · exact hs.mergeNext_get htouch hc hcx (.inl (by decide))
    refine ⟨?_, ?_⟩
    · rw [get_magic_of_kept hs hc hin hend hkeep (hs.payloadKept_mergeNext htouch hc), hmagic]
    · have hstop := Block.join_stop htouch
      have haddr : (x.join y).addr = x.addr := rfl
      have hxy : x.addr + blockSize ≤ y.addr := by
        rw [← htouch]
        exact Nat.le_add_right ..
      -- a header in one of the two is now in the joined block
      by_cases hcx : c = x
      · subst hcx
        have hle : c.stop ≤ (c.join y).stop := by
          rw [hstop, htouch]
          unfold Block.stop
          omega
        refine ⟨c.join y, List.mem_append_right _ (List.mem_cons_self ..), hx, hin, ?_⟩
        omega
      · by_cases hcy : c = y
        · subst hcy
          refine ⟨x.join c, List.mem_append_right _ (List.mem_cons_self ..), hx, ?_, ?_⟩
          · right
            rcases hin with rfl | hin
            · exact hxy
            · omega
          · rw [hstop]
            exact hend
        · refine ⟨c, mem_middle ?_ _, hfree, hin, hend⟩
          have hc : c ∈ pre ++ ([x] ++ ([y] ++ post)) := hc
          exact mem_others (mem_others hc hcx) hcy

/-- The block that is freed and the headers freed before. -/
theorem FreedBlock.freedAt {pre' post' : List Block} {b' : Block}
    (hf : FreedBlock h frames pre b post pre' b' post')
    (hs : Shape h (pre ++ ([b] ++ post)) frames) (hlive : b.free = false)
    (ha : a = b.addr ∨ FreedAt h (pre ++ ([b] ++ post)) a) :
    FreedAt (kfree h (b.addr + blockSize)) (pre' ++ ([b'] ++ post')) a := by
  obtain ⟨b₁, -, -, k, hjoined, hk, hjoined'⟩ := hf.next
  have hmarked :
      FreedAt (Pelikan.marked h b.addr) (pre ++ ([{ b with free := true }] ++ post)) a := by
    rcases ha with rfl | ha
    · exact freedAt_marked h pre post b
    · exact ha.marked hs hlive
  exact (hmarked.joined hs.marked hjoined).joined hk hjoined'

/-! ## Runs of `kfree` -/

/-- Calls of `kfree` on live pointers, and stores of their clients, lead from the one heap to the
other. -/
inductive FreesOnly (h₀ : Heap) : Heap → Prop where
  | refl : FreesOnly h₀ h₀
  | kfree {h : Heap} {p : Nat} (hrun : FreesOnly h₀ h) (hlive : BlockInUse h p) :
      FreesOnly h₀ (kfree h p)
  | write {h : Heap} {p i : Nat} {v : BitVec 8} (hrun : FreesOnly h₀ h) (hlive : BlockInUse h p)
      (hi : i < h.get (p - blockSize) .size) :
      FreesOnly h₀ { h with mem := Function.update h.mem (p + i) v }

/-- A live pointer is the payload of a block in use. -/
theorem Shape.exists_of_inUse (hs : Shape h l frames) (hlive : BlockInUse h p) :
    ∃ pre b post, l = pre ++ ([b] ++ post) ∧ b.free = false ∧ p = b.addr + blockSize := by
  obtain ⟨path, hpath, a, ha, hfree, rfl⟩ := hlive
  obtain rfl := hpath.unique hs.nextPath
  obtain ⟨b, hb, rfl⟩ := List.mem_map.mp ha
  obtain ⟨pre, post, rfl⟩ := List.append_of_mem hb
  refine ⟨pre, b, post, rfl, ?_, rfl⟩
  have hs : Shape h (pre ++ ([b] ++ post)) frames := hs
  have hflag : b.flag = 0 := hs.header.free.symm.trans hfree
  unfold Block.flag at hflag
  split at hflag
  · cases hflag
  · next hno => exact Bool.eq_false_iff.mpr hno

/-- A store into the payload of a block in use changes no header, and no free block. -/
theorem WellFormed.write {i : Nat} (hw : WellFormed h (pre ++ ([b] ++ post)) frames)
    (hlive : b.free = false) (hi : i < b.size) (v : BitVec 8)
    (ha : FreedAt h (pre ++ ([b] ++ post)) a) :
    WellFormed { h with mem := Function.update h.mem (b.addr + blockSize + i) v }
        (pre ++ ([b] ++ post)) frames ∧
      FreedAt { h with mem := Function.update h.mem (b.addr + blockSize + i) v }
        (pre ++ ([b] ++ post)) a := by
  have hb : b ∈ pre ++ ([b] ++ post) := List.mem_append_right _ (List.mem_cons_self ..)
  have hs := hw.shape
  -- of all blocks only the written one has to count as live
  have hdesc : Described ⟨h, fun q => if q = b.addr + blockSize then some b.size else none⟩
      (pre ++ ([b] ++ post)) frames := by
    refine ⟨hs, fun q n hq => ?_⟩
    have hq : (if q = b.addr + blockSize then some b.size else none) = some n := hq
    split at hq
    · next heq => exact ⟨b, hb, hlive, heq, (Option.some.inj hq).ge⟩
    · cases hq
  obtain ⟨hdesc', hback⟩ := hdesc.write (p := b.addr + blockSize) (if_pos rfl) hi v
  refine ⟨⟨hdesc'.shape, hback hw.backed⟩, ?_⟩
  obtain ⟨hmagic, c, hc, hfree, hin, hend⟩ := ha
  have hne : c ≠ b := by
    rintro rfl
    rw [hlive] at hfree
    cases hfree
  -- the freed magic lies in another block
  have hapart := hs.apart hc hb hne
  refine ⟨?_, c, hc, hfree, hin, hend⟩
  have hheader := hs.bounds hc
  rw [← hmagic]
  refine get_congr (by omega) fun x hx hx' => Function.update_of_ne ?_ _ _
  unfold Block.stop at hapart hend
  omega

/-- The heap stays well-formed, and what was freed is marked as freed. -/
theorem FreesOnly.freedAt (hrun : FreesOnly h h') (hw : WellFormed h l frames)
    (ha : FreedAt h l a) : ∃ l', WellFormed h' l' frames ∧ FreedAt h' l' a := by
  induction hrun with
  | refl => exact ⟨l, hw, ha⟩
  | @kfree k p _ hlive ih =>
    obtain ⟨l', hw', ha'⟩ := ih
    obtain ⟨pre, b, post, rfl, hfree, rfl⟩ := hw'.shape.exists_of_inUse hlive
    obtain ⟨pre', b', post', hfreed⟩ := hw'.freedBlock
    exact ⟨_, ⟨hfreed.shape, hfreed.backed hw'.backed⟩, hfreed.freedAt hw'.shape hfree (.inr ha')⟩
  | @write k p i v _ hlive hi ih =>
    obtain ⟨l', hw', ha'⟩ := ih
    obtain ⟨pre, b, post, rfl, hfree, rfl⟩ := hw'.shape.exists_of_inUse hlive
    rw [Nat.add_sub_cancel, hw'.shape.header.size] at hi
    exact ⟨_, hw'.write hfree hi v ha'⟩

/-- `kfree` of a pointer that has been freed already, and not been handed out again, reports it. -/
theorem double_free_diagnosed (hw : WellFormed h l frames) (hlive : BlockInUse h p)
    (hrun : FreesOnly (kfree h p) h') : p ≠ 0 ∧ kfreeReport h' p = .doubleFree := by
  obtain ⟨pre, b, post, rfl, hfree, rfl⟩ := hw.shape.exists_of_inUse hlive
  obtain ⟨pre', b', post', hfreed⟩ := hw.freedBlock
  obtain ⟨l', -, hmagic, -⟩ := hrun.freedAt ⟨hfreed.shape, hfreed.backed hw.backed⟩
    (hfreed.freedAt hw.shape hfree (.inl rfl))
  have hle := hw.shape.header_le (List.mem_append_right pre (List.mem_cons_self ..))
  have haddr : u32 (b.addr + blockSize + 4294967296 - blockSize) = b.addr := by
    unfold u32 blockSize at *
    omega
  constructor
  · unfold blockSize
    omega
  · unfold kfreeReport
    simp [haddr, hmagic, heapMagicAlloc, heapMagicFree]

/-- Frame 301 with two blocks of 100 bytes in use, and a free rest. -/
def cutHeap : Heap :=
  let h := grownHeap emptyHeap [] 301 (markFrame emptyHeap.bitmap 301)
  allocated (allocated h (frameBlock 301) 100) ((frameBlock 301).rest 100) 100

theorem cutHeap_wellFormed : WellFormed cutHeap
    ([⟨1232896, 100, false⟩] ++ ([⟨1233016, 100, false⟩] ++ [⟨1233136, 3836, true⟩])) {301} := by
  have hempty : Backed emptyHeap 0 [] := trivial
  have hgrown : Shape (grownHeap emptyHeap [] 301 (markFrame emptyHeap.bitmap 301))
      ([] ++ ([frameBlock 301] ++ [])) {301} :=
    emptyHeap_shape.grow (f := 301) (by decide) (by decide) (by decide)
      (bitAt_or_mask emptyHeap.bitmap 301)
  have hback : Backed (grownHeap emptyHeap [] 301 (markFrame emptyHeap.bitmap 301)) 0
      ([] ++ ([frameBlock 301] ++ [])) :=
    hempty.grow emptyHeap_shape (f := 301) (by decide) (by decide)
  have hcut : Shape (allocated (grownHeap emptyHeap [] 301 (markFrame emptyHeap.bitmap 301))
      (frameBlock 301) 100)
      ([⟨1232896, 100, false⟩] ++ ([(frameBlock 301).rest 100] ++ [])) {301} :=
    hgrown.allocated (by decide)
  have hback' : Backed (allocated (grownHeap emptyHeap [] 301 (markFrame emptyHeap.bitmap 301))
      (frameBlock 301) 100) 0
      ([⟨1232896, 100, false⟩] ++ ([(frameBlock 301).rest 100] ++ [])) :=
    hback.allocated hgrown (by decide) fun _ => rfl
  exact ⟨hcut.allocated (by decide), hback'.allocated hcut (by decide) fun _ => rfl⟩

/-- The second of two calls. The block in front is freed in between, and joined with the freed
one, whose header is not one of the list any more. -/
theorem double_free_diagnosed_cut : (1233036 : Nat) ≠ 0 ∧
    kfreeReport (kfree (kfree cutHeap 1233036) 1232916) 1233036 = .doubleFree := by
  have hw := cutHeap_wellFormed
  have hlive : BlockInUse cutHeap 1233036 :=
    ⟨_, hw.shape.nextPath, 1233016, by simp, hw.shape.header.free, rfl⟩
  obtain ⟨l', b', hw', -, hkept, -⟩ := kfree_wellFormed hw
  obtain ⟨hmem, -⟩ := hkept ⟨1232896, 100, false⟩ (by simp) rfl
  obtain ⟨next, hheader⟩ := hw'.shape.linked.exists_header hmem
  have hlive' : BlockInUse (kfree cutHeap 1233036) 1232916 :=
    ⟨_, hw'.shape.nextPath, 1232896, List.mem_map_of_mem hmem, hheader.free, rfl⟩
  exact double_free_diagnosed hw hlive (.kfree .refl hlive')

end

end Pelikan

end SystemsProjects

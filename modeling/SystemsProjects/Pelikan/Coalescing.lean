import Mathlib.Data.List.Chain
import SystemsProjects.Pelikan.HeapCalls

/-!
# Coalescing over runs

`kfree` looks once behind the freed block and once in front of it. In the runs of `kmalloc`, `kfree`
and clients that is enough, as long as `prev` does not mislead it: the list is in the order of the
addresses (`Sorted`), because frames are handed out in ascending order, and no two free neighbours
touch (`Parted`), so joining the freed block with one neighbour makes no new pair.

`kmalloc` leaves a stale `prev` word behind when it cuts a block in front of another one. What
`prev` says matters only when the block it names passes the test of `kfree`, or when the block in
front on the list does.

- `Ordered`: what holds of the heap in those runs.
- `kfree_freedBlock_of_told`: `kfree` where `prev` does not mislead it.
- `coalesced_of_told`: after each call the freed block touches no free neighbour.
- `cutRun_not_coalesced`: a run in which it does.

That no two free neighbours touch can only be lost in two ways. `kfree` makes a free block: it
is joined with both neighbours if it can be, and the condition `PrevTold` is that it can.
`kmalloc` cuts a rest off a free block, but the rest ends where the block did, and what comes
before it is in use (`Parted.taken`).
-/

namespace SystemsProjects

namespace Pelikan

open TransitionSystem

/-! ## What is promised -/

/-- The block at `z` is free and holds `n` bytes from `p` on, and touches no free neighbour. -/
def CoalescedAt (h : Heap) (p n : Nat) : Prop :=
  ∃ xs z ys, NextPath h h.head (xs ++ z :: ys) ∧ h.get z .free = 1 ∧ z + blockSize ≤ p ∧
    p + n ≤ z + blockSize + h.get z .size ∧
    ∀ y, y ∈ ys.head? ∨ y ∈ xs.getLast? → h.get y .free = 1 →
      z + blockSize + h.get z .size ≠ y ∧ y + blockSize + h.get y .size ≠ z

/-- The payload that a call of `kfree` has freed is in such a block. -/
def Coalesces (s : HeapState) (a : HeapAction) (s' : HeapState) : Prop :=
  match a with
  | .kfree p => CoalescedAt s'.heap p (s.heap.get (p - blockSize) .size)
  | _ => True

/-- The test of `kfree` on the block in front: it is free and ends at `block`. -/
def PassesPrev (h : Heap) (x block : Nat) : Prop :=
  x ≠ 0 ∧ h.get x .free = 1 ∧ u32 (x + blockSize + h.get x .size) = block

/-- When the block that `prev` names passes the test, or the one in front on the list does, these
are the same block. -/
def PrevTold (s : HeapState) (a : HeapAction) : Prop :=
  match a with
  | .kfree p => ∀ xs b ys, NextPath s.heap s.heap.head (xs ++ b :: ys) → p = b + blockSize →
      PassesPrev s.heap (s.heap.get b .prev) b ∨ PassesPrev s.heap (xs.getLastD 0) b →
        s.heap.get b .prev = xs.getLastD 0
  | _ => True

/-! ## The order of the list -/

/-- The list goes up in memory. -/
def Sorted (l : List Block) : Prop := l.Pairwise fun b c => b.stop ≤ c.addr

/-- No two free neighbours touch. -/
def Parted (l : List Block) : Prop :=
  l.IsChain fun b c => b.free = true → c.free = true → b.stop ≠ c.addr

section

variable {h h' k : Heap} {b c x y : Block} {l l' pre post seg seg' : List Block}
  {frames : Finset Nat} {size n p f : Nat} {s s' : HeapState}

/-- What takes the place of a segment lies between its ends. -/
theorem Sorted.replace (hs : Sorted (pre ++ (seg ++ post))) (hseg : Sorted seg')
    (hlo : ∀ c ∈ seg', ∃ d ∈ seg, d.addr ≤ c.addr) (hhi : ∀ c ∈ seg', ∃ d ∈ seg, c.stop ≤ d.stop) :
    Sorted (pre ++ (seg' ++ post)) := by
  unfold Sorted at *
  rw [List.pairwise_append, List.pairwise_append] at hs ⊢
  obtain ⟨hpre, ⟨-, hpost, hmid⟩, hcross⟩ := hs
  refine ⟨hpre, ⟨hseg, hpost, ?_⟩, ?_⟩
  · intro c hc z hz
    obtain ⟨d, hd, hle⟩ := hhi c hc
    exact Nat.le_trans hle (hmid d hd z hz)
  · intro a ha c hc
    rcases List.mem_append.mp hc with hc | hc
    · obtain ⟨d, hd, hle⟩ := hlo c hc
      exact Nat.le_trans (hcross a ha d (List.mem_append_left _ hd)) hle
    · exact hcross a ha c (List.mem_append_right _ hc)

/-- A block that is split is replaced by its parts, in order. -/
theorem Sorted.taken (hs : Sorted (pre ++ ([b] ++ post))) :
    Sorted (pre ++ (b.taken size ++ post)) := by
  have hb : b ∈ [b] := List.mem_cons_self ..
  unfold Block.taken
  by_cases hcuts : b.Cuts size
  · have hcut : size + blockSize + 1 ≤ b.size := hcuts
    rw [if_pos hcuts]
    refine hs.replace ?_ ?_ ?_
    · simp [Sorted, Block.stop, Block.rest]
    · intro c hc
      refine ⟨b, hb, ?_⟩
      -- both halves lie inside the block that is cut
      rcases List.mem_pair.mp hc with rfl | rfl
      · exact Nat.le_refl _
      · show b.addr ≤ b.addr + blockSize + size
        omega
    · intro c hc
      refine ⟨b, hb, ?_⟩
      rcases List.mem_pair.mp hc with rfl | rfl
      · show b.addr + blockSize + size ≤ b.addr + blockSize + b.size
        omega
      · show b.addr + blockSize + size + blockSize + (b.size - size - blockSize) ≤
          b.addr + blockSize + b.size
        omega
  · rw [if_neg hcuts]
    refine hs.replace (List.pairwise_singleton ..) ?_ ?_
    · intro c hc
      rw [List.mem_singleton.mp hc]
      exact ⟨b, hb, Nat.le_refl _⟩
    · intro c hc
      rw [List.mem_singleton.mp hc]
      exact ⟨b, hb, Nat.le_refl _⟩

theorem Sorted.marked (hs : Sorted (pre ++ ([b] ++ post))) :
    Sorted (pre ++ ([{ b with free := true }] ++ post)) := by
  refine hs.replace (List.pairwise_singleton ..) ?_ ?_
  · intro c hc
    rw [List.mem_singleton.mp hc]
    exact ⟨b, List.mem_cons_self .., Nat.le_refl _⟩
  · intro c hc
    rw [List.mem_singleton.mp hc]
    exact ⟨b, List.mem_cons_self .., Nat.le_refl _⟩

theorem Sorted.joined (hs : Sorted l) (hj : Joined h l h' l') : Sorted l' := by
  cases hj with
  | same => exact hs
  | @merge pre post x y hl hx hy htouch =>
    subst hl
    refine hs.replace (List.pairwise_singleton ..) ?_ ?_
    · intro c hc
      rw [List.mem_singleton.mp hc]
      exact ⟨x, List.mem_cons_self .., Nat.le_refl _⟩
    · intro c hc
      rw [List.mem_singleton.mp hc]
      refine ⟨y, List.mem_cons_of_mem _ (List.mem_cons_self ..), ?_⟩
      rw [Block.join_stop htouch]

theorem FreedBlock.sorted {pre' post' : List Block} {b' : Block}
    (hf : FreedBlock h frames pre b post pre' b' post') (hs : Sorted (pre ++ ([b] ++ post))) :
    Sorted (pre' ++ ([b'] ++ post')) := by
  obtain ⟨b₁, -, -, k, hjoined, -, hjoined'⟩ := hf.next
  exact (hs.marked.joined hjoined).joined hjoined'

/-! ## Free neighbours -/

/-- A list around one of its blocks. -/
theorem parted_middle : Parted (pre ++ ([b] ++ post)) ↔
    Parted pre ∧ Parted post ∧
      (∀ p ∈ pre.getLast?, p.free = true → b.free = true → p.stop ≠ b.addr) ∧
      ∀ n ∈ post.head?, b.free = true → n.free = true → b.stop ≠ n.addr := by
  unfold Parted
  rw [List.isChain_append, List.isChain_append]
  simp
  tauto

/-- A block in use may be what it likes, and what is cut off ends where the block did. -/
theorem Parted.taken (hpre : Parted pre) (hpost : Parted post)
    (hnext : ∀ n ∈ post.head?, n.free = true → b.stop ≠ n.addr) :
    Parted (pre ++ (b.taken size ++ post)) := by
  unfold Block.taken
  by_cases hcuts : b.Cuts size
  · have hcut : size + blockSize + 1 ≤ b.size := hcuts
    have hstop : (b.rest size).stop = b.stop := by
      show b.addr + blockSize + size + blockSize + (b.size - size - blockSize) =
        b.addr + blockSize + b.size
      omega
    have hrest : Parted ([] ++ ([b.rest size] ++ post)) := by
      rw [parted_middle]
      refine ⟨.nil, hpost, nofun, fun n hn _ hfree => ?_⟩
      rw [hstop]
      exact hnext n hn hfree
    rw [if_pos hcuts]
    show Parted (pre ++ ([⟨b.addr, size, false⟩] ++ ([b.rest size] ++ post)))
    rw [parted_middle]
    exact ⟨hpre, hrest, nofun, nofun⟩
  · rw [if_neg hcuts, parted_middle]
    exact ⟨hpre, hpost, nofun, nofun⟩

/-- Joining with the free neighbours leaves no free neighbour that touches. -/
theorem Parted.freed {b₁ b' : Block} {pre' post' : List Block} (hp : Parted (pre ++ ([b] ++ post)))
    (hnext : JoinsNext { b with free := true } post b₁ post')
    (hprev : JoinsPrev pre b₁ pre' b') : Parted (pre' ++ ([b'] ++ post')) := by
  obtain ⟨hpre, hpost, -, -⟩ := parted_middle.mp hp
  -- behind: the second of two neighbours does not touch the first one if both are free
  have hbehind : Parted post' ∧ ∀ n ∈ post'.head?, n.free = true → b₁.stop ≠ n.addr := by
    rcases hnext with ⟨n, rfl, hfree, htouch, rfl⟩ | ⟨rfl, rfl, hno⟩
    · have hpost : Parted ([] ++ ([n] ++ post')) := hpost
      obtain ⟨-, hrest, -, hhead⟩ := parted_middle.mp hpost
      refine ⟨hrest, fun n' hn' hfree' => ?_⟩
      rw [Block.join_stop htouch]
      exact hhead n' hn' hfree hfree'
    · refine ⟨hpost, fun n hn hfree => ?_⟩
      cases post' with
      | nil => cases hn
      | cons n' rest =>
        obtain rfl : n' = n := Option.some.inj hn
        exact hno n' rest rfl hfree
  have hfront : Parted pre' ∧ (∀ q ∈ pre'.getLast?, q.free = true → q.stop ≠ b'.addr) ∧
      b'.stop = b₁.stop := by
    rcases hprev with ⟨p, rfl, hfree, htouch, rfl⟩ | ⟨rfl, rfl, hno⟩
    · have hpre : Parted (pre' ++ ([p] ++ [])) := hpre
      obtain ⟨hrest, -, hlast, -⟩ := parted_middle.mp hpre
      exact ⟨hrest, fun q hq hfree' => hlast q hq hfree' hfree, Block.join_stop htouch⟩
    · refine ⟨hpre, fun q hq hfree => ?_, rfl⟩
      obtain ⟨rest, rfl⟩ := List.getLast?_eq_some_iff.mp hq
      exact hno rest q rfl hfree
  rw [parted_middle]
  refine ⟨hfront.1, hbehind.1, fun q hq hfree _ => hfront.2.1 q hq hfree, fun n hn _ hfree => ?_⟩
  rw [hfront.2.2]
  exact hbehind.2 n hn hfree

/-! ## `prev` -/

/-- A `prev` word is 0, or names a header that ends in front of the block. -/
def PrevBelow (h : Heap) (l : List Block) : Prop :=
  ∀ c ∈ l, h.get c.addr .prev = 0 ∨ h.get c.addr .prev + blockSize ≤ c.addr

/-- The split does not set the `prev` of the block behind it, which still points below. -/
theorem PrevBelow.allocated (hs : Shape h (pre ++ ([b] ++ post)) frames) (hpos : 0 < size)
    (hb : PrevBelow h (pre ++ ([b] ++ post))) :
    PrevBelow (allocated h b size) (pre ++ (b.taken size ++ post)) := by
  have hmem : b ∈ pre ++ ([b] ++ post) := List.mem_append_right _ (List.mem_cons_self ..)
  have hnext : first post 0 < 4294967296 := hs.header.next ▸ get_lt ..
  obtain ⟨hprev, hrest⟩ := allocated_prev hs.header hpos (hs.bounds hmem).2 hnext
  -- the other headers are not written
  have hside : ∀ c ∈ pre ++ post, (Pelikan.allocated h b size).get c.addr .prev = 0 ∨
      (Pelikan.allocated h b size).get c.addr .prev + blockSize ≤ c.addr := by
    intro c hc
    have hcm := mem_middle hc [b]
    rw [allocated_get hs hmem hcm (hs.ne_of_mem hc)]
    exact hb c hcm
  have hself := hb b hmem
  rw [← hprev] at hself
  intro c hc
  rcases List.mem_append.mp hc with hc | hc
  · exact hside c (List.mem_append_left _ hc)
  rcases List.mem_append.mp hc with hc | hc
  · unfold Block.taken at hc
    by_cases hcuts : b.Cuts size
    · rw [if_pos hcuts] at hc
      rcases List.mem_pair.mp hc with rfl | rfl
      · exact hself
      · -- the rest of the block names the block
        rw [hrest hcuts]
        right
        exact Nat.le_add_right ..
    · rw [if_neg hcuts] at hc
      rw [List.mem_singleton.mp hc]
      exact hself
  · exact hside c (List.mem_append_right _ hc)

theorem PrevBelow.marked (hs : Shape h (pre ++ ([b] ++ post)) frames)
    (hb : PrevBelow h (pre ++ ([b] ++ post))) :
    PrevBelow (marked h b.addr) (pre ++ ([{ b with free := true }] ++ post)) := by
  have hmem : b ∈ pre ++ ([b] ++ post) := List.mem_append_right _ (List.mem_cons_self ..)
  intro c hc
  by_cases hcb : c = { b with free := true }
  · subst hcb
    show (Pelikan.marked h b.addr).get b.addr .prev = 0 ∨ _
    rw [marked_prev]
    exact hb b hmem
  · have hc := mem_others hc hcb
    have hcm := mem_middle hc [b]
    rw [marked_get hs hmem hcm (hs.ne_of_mem hc)]
    exact hb c hcm

/-- The block behind a join gets the joined block as its `prev`. -/
theorem PrevBelow.mergeNext (hs : Shape h (pre ++ ([x, y] ++ post)) frames)
    (hsorted : Sorted (pre ++ ([x, y] ++ post))) (htouch : x.stop = y.addr)
    (hb : PrevBelow h (pre ++ ([x, y] ++ post))) :
    PrevBelow (mergeNext h x.addr y.addr) (pre ++ ([x.join y] ++ post)) := by
  obtain ⟨hx, -, -⟩ := hs.pair_mem
  -- two headers change: the merged one, and the one behind it
  have hother : ∀ c ∈ pre ++ post.tail, (Pelikan.mergeNext h x.addr y.addr).get c.addr .prev = 0 ∨
      (Pelikan.mergeNext h x.addr y.addr).get c.addr .prev + blockSize ≤ c.addr := by
    intro c hc
    rw [hs.mergeNext_prev htouch hc]
    refine hb c ?_
    rcases List.mem_append.mp hc with hc | hc
    · exact List.mem_append_left _ hc
    · exact List.mem_append_right _ (List.mem_append_right _ (List.mem_of_mem_tail hc))
  intro c hc
  rcases List.mem_append.mp hc with hc | hc
  · exact hother c (List.mem_append_left _ hc)
  rcases List.mem_cons.mp hc with rfl | hc
  · have haddr : (x.join y).addr = x.addr := rfl
    rw [haddr, (hs.mergeNext_header htouch).2]
    exact hb x hx
  · cases post with
    | nil => cases hc
    | cons z post =>
      rcases List.mem_cons.mp hc with rfl | hc
      · -- the block behind the two names the merged one now
        have hzm : c ∈ pre ++ ([x, y] ++ c :: post) :=
          List.mem_append_right _ (List.mem_append_right _ (List.mem_cons_self ..))
        have hprev : (Pelikan.mergeNext h x.addr y.addr).get c.addr .prev = x.addr :=
          hs.mergeNext_first htouch (hs.addr_ne_zero hzm)
        have hxc : x.stop ≤ c.addr := by
          have hmiddle := (List.pairwise_append.mp hsorted).2.1
          exact List.rel_of_pairwise_cons hmiddle (List.mem_cons_of_mem _ (List.mem_cons_self ..))
        right
        rw [hprev]
        unfold Block.stop at hxc
        omega
      · exact hother c (List.mem_append_right _ hc)

theorem PrevBelow.joined (hs : Shape h l frames) (hsorted : Sorted l) (hj : Joined h l h' l')
    (hb : PrevBelow h l) : PrevBelow h' l' := by
  cases hj with
  | same => exact hb
  | merge hl hx hy htouch =>
    subst hl
    exact hb.mergeNext hs hsorted htouch

/-! ## The heap of a run -/

/-- The list goes up, no two free neighbours touch, and every frame below the end of a block is in
use. -/
structure Ordered (h : Heap) (l : List Block) : Prop where
  sorted : Sorted l
  parted : Parted l
  prev : PrevBelow h l
  below : ∀ c ∈ l, ∀ g, g * 4096 < c.stop → bitAt h.bitmap g = true

/-- No part of a block that has served a request reaches further than the block did. -/
theorem stop_le_of_mem_taken (hc : c ∈ b.taken size) : c.stop ≤ b.stop := by
  unfold Block.taken at hc
  by_cases hcuts : b.Cuts size
  · have hcut : size + blockSize + 1 ≤ b.size := hcuts
    rw [if_pos hcuts] at hc
    rcases List.mem_pair.mp hc with rfl | rfl
    · show b.addr + blockSize + size ≤ b.addr + blockSize + b.size
      omega
    · show b.addr + blockSize + size + blockSize + (b.size - size - blockSize) ≤
        b.addr + blockSize + b.size
      omega
  · rw [if_neg hcuts] at hc
    rw [List.mem_singleton.mp hc]
    exact Nat.le_refl _

/-- A block on the list serves the request. -/
theorem Ordered.allocated (ho : Ordered h (pre ++ ([b] ++ post)))
    (hs : Shape h (pre ++ ([b] ++ post)) frames) (hpos : 0 < size) (hfits : b.Fits size) :
    Ordered (allocated h b size) (pre ++ (b.taken size ++ post)) where
  sorted := ho.sorted.taken
  parted := by
    obtain ⟨hpre, hpost, -, hnext⟩ := parted_middle.mp ho.parted
    exact Parted.taken hpre hpost fun n hn hfree => hnext n hn hfits.1 hfree
  prev := ho.prev.allocated hs hpos
  below c hc g hg := by
    rw [allocated_bitmap]
    rcases List.mem_append.mp hc with hc | hc
    · exact ho.below c (List.mem_append_left _ hc) g hg
    rcases List.mem_append.mp hc with hc | hc
    · refine ho.below b (List.mem_append_right _ (List.mem_cons_self ..)) g ?_
      exact Nat.lt_of_lt_of_le hg (stop_le_of_mem_taken hc)
    · exact ho.below c (List.mem_append_right _ (List.mem_append_right _ hc)) g hg

/-- A new frame stands behind all blocks, and serves the request. -/
theorem Ordered.grow {bitmap : Bitmap} (ho : Ordered h l) (hs : Shape h l frames) (hpos : 0 < size)
    (hf : f ∉ frames) (hlt : f < maxFrames) (hfpos : 0 < f) (hfree : bitAt h.bitmap f = false)
    (hused : ∀ g, g < f → bitAt h.bitmap g = true)
    (hbits : ∀ g, bitAt bitmap g = (decide (g = f) || bitAt h.bitmap g)) :
    Ordered (Pelikan.allocated (grownHeap h l f bitmap) (frameBlock f) size)
      (l ++ ((frameBlock f).taken size ++ [])) := by
  have hgrown : Shape (grownHeap h l f bitmap) (l ++ ([frameBlock f] ++ [])) (insert f frames) :=
    hs.grow hf hlt hfpos hbits
  -- the first frame that is free is behind those that the blocks reach into
  have hbehind : ∀ c ∈ l, c.stop ≤ f * 4096 := by
    intro c hc
    by_contra hlt
    have hbit := ho.below c hc f (Nat.lt_of_not_le hlt)
    rw [hfree] at hbit
    cases hbit
  have hstop : (frameBlock f).stop = f * 4096 + 4096 := by
    show f * 4096 + blockSize + (4096 - blockSize) = f * 4096 + 4096
    unfold blockSize
    omega
  have hsorted : Sorted (l ++ ([frameBlock f] ++ [])) := by
    refine List.pairwise_append.mpr ⟨ho.sorted, List.pairwise_singleton .., ?_⟩
    intro c hc d hd
    rw [List.mem_singleton.mp hd]
    exact hbehind c hc
  have hprev : PrevBelow (grownHeap h l f bitmap) (l ++ ([frameBlock f] ++ [])) := by
    intro c hc
    rcases List.mem_append.mp hc with hc | hc
    · have hkeep : (grownHeap h l f bitmap).get c.addr .prev = h.get c.addr .prev :=
        hs.linkFrame_get hf hlt hc fun _ => nofun
      rw [hkeep]
      exact ho.prev c hc
    · have hnew : (grownHeap h l f bitmap).get (f * 4096) .prev = last l 0 :=
        (hs.linkFrame_header hf hlt).2
      rw [List.mem_singleton.mp hc]
      show (grownHeap h l f bitmap).get (f * 4096) .prev = 0 ∨
        (grownHeap h l f bitmap).get (f * 4096) .prev + blockSize ≤ f * 4096
      rw [hnew]
      rcases last_cases l with rfl | ⟨z, hz, hlast⟩
      · exact .inl rfl
      · have hzf := hbehind z hz
        right
        rw [hlast]
        unfold Block.stop at hzf
        omega
  constructor
  · exact hsorted.taken
  · exact Parted.taken ho.parted .nil nofun
  · exact hprev.allocated hgrown hpos
  · intro c hc g hg
    rw [allocated_bitmap, grownHeap_bitmap, hbits]
    rcases List.mem_append.mp hc with hc | hc
    · rw [ho.below c hc g hg, Bool.or_true]
    · rw [List.append_nil] at hc
      have hle := stop_le_of_mem_taken hc
      rw [hstop] at hle
      rcases Nat.lt_or_eq_of_le (show g ≤ f by omega) with hgf | rfl
      · rw [hused g hgf, Bool.or_true]
      · simp

/-- `kmalloc` keeps the order, as long as a frame is left. -/
theorem Ordered.kmalloc (ho : Ordered h l) (hs : Shape h l frames)
    (hleft : frameLeft h.bitmap = true) (hcall : Yields (kmalloc h size) (p, h')) :
    ∃ l' frames', Shape h' l' frames' ∧ Ordered h' l' := by
  cases kmalloc_served hs hleft hcall with
  | ignored hsize => exact ⟨l, frames, hs, ho⟩
  | fit hl hpos hsize hpre hfits =>
    subst hl
    exact ⟨_, _, hs.allocated hpos, ho.allocated hs hpos hfits⟩
  | grow hnone hpos hsize =>
    -- the frame is the first one that is free
    obtain ⟨f, bitmap, hf, hlt, hfpos, hfree, hused, hbits, hcall'⟩ :=
      kmalloc_grow hs hpos hsize hnone hleft
    obtain ⟨-, heq⟩ := Prod.mk.inj (hcall.unique (kmalloc_mono h size) hcall')
    rw [heq]
    have hgrown : Shape (grownHeap h l f bitmap) (l ++ ([frameBlock f] ++ [])) (insert f frames) :=
      hs.grow hf hlt hfpos hbits
    exact ⟨_, _, hgrown.allocated hpos, ho.grow hs hpos hf hlt hfpos hfree hused hbits⟩

/-! ## `kfree` -/

/-- Nothing in front of the block is written when it is marked and joined with the one behind. -/
theorem coalesceNext_below {a : Nat} (hs : Shape h (pre ++ ([b] ++ post)) frames)
    (hsorted : Sorted (pre ++ ([b] ++ post))) (ha : a < b.addr) :
    (coalesceNext (marked h b.addr) b.addr).mem a = h.mem a := by
  have hb := hs.header_le (List.mem_append_right pre (List.mem_cons_self ..))
  have hmarked : (Pelikan.marked h b.addr).mem a = h.mem a := by
    unfold Pelikan.marked
    simp only [set_mem_of_notMem hb (.inl ha)]
  -- merged or not, the writes lie at `b` and behind it
  rcases hs.marked.coalesceNext_cases with ⟨n, post', rfl, -, htouch, heq⟩ | ⟨heq, -⟩
  · have hs' :
        Shape (Pelikan.marked h b.addr) (pre ++ ([{ b with free := true }, n] ++ post')) frames :=
      hs.marked
    have hmerge := hs'.mergeNext_eq htouch
    rw [heq, hmerge]
    by_cases hne : first post' 0 ≠ 0
    · -- the block behind the two stands behind `b`
      obtain ⟨z, hz, hzaddr, -, -⟩ := hs'.first_mem hne
      have hz32 := hs'.header_le hz
      have hbz : b.addr ≤ first post' 0 := by
        cases post' with
        | nil => exact absurd rfl hne
        | cons z' rest =>
          have hmiddle := (List.pairwise_append.mp hsorted).2.1
          have hbz :=
            List.rel_of_pairwise_cons hmiddle (List.mem_cons_of_mem n (List.mem_cons_self ..))
          show b.addr ≤ z'.addr
          unfold Block.stop at hbz
          omega
      rw [hzaddr] at hz32
      rw [if_pos hne]
      simp only [set_mem_of_notMem hz32 (.inl (Nat.lt_of_lt_of_le ha hbz)),
        set_mem_of_notMem hb (.inl ha), hmarked]
    · rw [if_neg hne]
      simp only [set_mem_of_notMem hb (.inl ha), hmarked]
  · rw [heq, hmarked]

/-- The block in front on the list passes the test when it is free and touches the block. -/
theorem Shape.passesPrev (hs : Shape h l frames) (hb : b ∈ l) (hfree : b.free = true) :
    PassesPrev h b.addr b.stop := by
  obtain ⟨next, hheader⟩ := hs.linked.exists_header hb
  refine ⟨hs.addr_ne_zero hb, ?_, ?_⟩
  · rw [hheader.free, flag_eq_one_iff, hfree]
  · rw [hheader.size]
    exact hs.u32_stop hb

/-- `kfree` of a block where `prev` does not mislead it. -/
theorem kfree_freedBlock_of_told (ho : Ordered h (pre ++ ([b] ++ post)))
    (hs : Shape h (pre ++ ([b] ++ post)) frames)
    (htold : PassesPrev h (h.get b.addr .prev) b.addr ∨ PassesPrev h (last pre 0) b.addr →
      h.get b.addr .prev = last pre 0) :
    ∃ pre' b' post', FreedBlock h frames pre b post pre' b' post' := by
  by_cases hprev : h.get b.addr .prev = last pre 0
  · exact kfree_freedBlock hs hprev
  obtain ⟨hself, hlast⟩ := not_or.mp (mt htold hprev)
  have hb : b ∈ pre ++ ([b] ++ post) := List.mem_append_right _ (List.mem_cons_self ..)
  obtain ⟨b₁, post₁, haddr, hkeep, hjoinNext, hjoined, hnext⟩ :=
    coalesceNext_spec hs.marked rfl (a := b.addr) rfl
  have hprev₁ : (coalesceNext (Pelikan.marked h b.addr) b.addr).get b.addr .prev =
      h.get b.addr .prev := hkeep.trans marked_prev
  -- the header that `prev` names is still as the test found it
  have hno : coalescePrev (coalesceNext (Pelikan.marked h b.addr) b.addr) b.addr =
      coalesceNext (Pelikan.marked h b.addr) b.addr := by
    unfold coalescePrev
    rw [hprev₁]
    refine if_neg ?_
    rintro ⟨hne, hpasses⟩
    have hbelow := (ho.prev b hb).resolve_left hne
    have hsame : ∀ f, (coalesceNext (Pelikan.marked h b.addr) b.addr).get (h.get b.addr .prev) f =
        h.get (h.get b.addr .prev) f := by
      have hb32 := hs.header_le hb
      exact fun f => get_congr (by omega) fun a _ ha =>
        coalesceNext_below hs ho.sorted (Nat.lt_of_lt_of_le ha hbelow)
    rw [hsame, hsame] at hpasses
    exact hself ⟨hne, hpasses⟩
  have hcall : kfree h (b.addr + blockSize) = coalesceNext (Pelikan.marked h b.addr) b.addr :=
    (kfree_eq hs hb).trans hno
  refine ⟨pre, b₁, post₁, ⟨b₁, hjoinNext, ?_, _, hjoined, hnext.shape, ?_⟩, ?_, hnext.free, ?_, ?_⟩
  · right
    refine ⟨rfl, rfl, ?_⟩
    rintro rest q rfl hfree htouch
    refine hlast ?_
    rw [last_append, ← haddr, ← htouch]
    exact hs.passesPrev
      (List.mem_append_left _ (List.mem_append_right _ (List.mem_cons_self ..))) hfree
  · rw [hcall]
    exact .same
  · rw [hcall]
    exact hnext.shape
  · intro hback
    exact absurd (backed_append.mp hback).2.1 hprev
  · intro c hc hfree
    obtain ⟨hmem, hkept⟩ := hnext.kept c (mem_middle hc _) hfree
    rw [hcall]
    exact ⟨hmem, (payloadKept_marked hs hb (mem_middle hc _)).trans hkept⟩

section Freed

variable {pre' post' : List Block} {b' : Block}

/-- No block reaches further than one did before. -/
theorem Joined.stop_le (hj : Joined h l h' l') (hc : c ∈ l') : ∃ d ∈ l, c.stop ≤ d.stop := by
  cases hj with
  | same => exact ⟨c, hc, Nat.le_refl _⟩
  | @merge pre post x y hl hx hy htouch =>
    subst hl
    rcases List.mem_append.mp hc with hc | hc
    · exact ⟨c, List.mem_append_left _ hc, Nat.le_refl _⟩
    rcases List.mem_cons.mp hc with rfl | hc
    · refine ⟨y, ?_, (Block.join_stop htouch).le⟩
      exact List.mem_append_right _ (List.mem_cons_of_mem _ (List.mem_cons_self ..))
    · exact ⟨c, List.mem_append_right _ (List.mem_append_right _ hc), Nat.le_refl _⟩

theorem FreedBlock.ordered (hf : FreedBlock h frames pre b post pre' b' post')
    (ho : Ordered h (pre ++ ([b] ++ post))) (hs : Shape h (pre ++ ([b] ++ post)) frames) :
    Ordered (kfree h (b.addr + blockSize)) (pre' ++ ([b'] ++ post')) := by
  obtain ⟨b₁, hnext, hprev, k, hjoined, hk, hjoined'⟩ := hf.next
  have hmarked := ho.sorted.marked
  constructor
  · exact hf.sorted ho.sorted
  · exact ho.parted.freed hnext hprev
  · have hmarkedPrev := (ho.prev.marked hs).joined hs.marked hmarked hjoined
    exact hmarkedPrev.joined hk (hmarked.joined hjoined) hjoined'
  · intro c hc g hg
    obtain ⟨d, hd, hcd⟩ := hjoined'.stop_le hc
    obtain ⟨e, he, hde⟩ := hjoined.stop_le hd
    have hge : g * 4096 < e.stop := by omega
    rw [kfree_bitmap]
    by_cases heb : e = { b with free := true }
    · subst heb
      exact ho.below b (List.mem_append_right _ (List.mem_cons_self ..)) g hge
    · exact ho.below e (mem_middle (mem_others he heb) _) g hge

/-- What comes out touches no free neighbour. -/
theorem FreedBlock.coalescedAt (hf : FreedBlock h frames pre b post pre' b' post')
    (ho : Ordered h (pre ++ ([b] ++ post))) (hs : Shape h (pre ++ ([b] ++ post)) frames) :
    CoalescedAt (kfree h (b.addr + blockSize)) (b.addr + blockSize) b.size := by
  have hordered := hf.ordered ho hs
  have hshape := hf.shape
  obtain ⟨-, -, hlast, hhead⟩ := parted_middle.mp hordered.parted
  obtain ⟨-, hmiddle, hcross⟩ := List.pairwise_append.mp hordered.sorted
  obtain ⟨hlo, hhi⟩ := hf.coalesced.holds
  have hpath := hshape.nextPath
  rw [List.map_append] at hpath
  -- the block over the freed one is free in the heap as well
  have hflag : (kfree h (b.addr + blockSize)).get b'.addr .free = 1 := by
    rw [hshape.header.free, flag_eq_one_iff, hf.free]
  have hfree : ∀ c ∈ pre' ++ ([b'] ++ post'),
      (kfree h (b.addr + blockSize)).get c.addr .free = 1 → c.free = true := by
    intro c hc hone
    obtain ⟨next, hheader⟩ := hshape.linked.exists_header hc
    rwa [hheader.free, flag_eq_one_iff] at hone
  have hsize : ∀ c ∈ pre' ++ ([b'] ++ post'),
      c.addr + blockSize + (kfree h (b.addr + blockSize)).get c.addr .size = c.stop := by
    intro c hc
    obtain ⟨next, hheader⟩ := hshape.linked.exists_header hc
    rw [hheader.size]
    rfl
  have hb' : b' ∈ pre' ++ ([b'] ++ post') := List.mem_append_right _ (List.mem_cons_self ..)
  refine ⟨_, b'.addr, _, hpath, hflag, ?_, ?_, ?_⟩
  · omega
  · rw [hsize b' hb']
    exact hhi
  · intro y hy hone
    rw [hsize b' hb']
    rcases hy with hy | hy
    · -- the neighbour behind
      rw [List.head?_map, Option.mem_map] at hy
      obtain ⟨n, hn, rfl⟩ := hy
      have hnpost := List.mem_of_mem_head? hn
      have hnmem : n ∈ pre' ++ ([b'] ++ post') :=
        List.mem_append_right _ (List.mem_append_right _ hnpost)
      have hle : b'.stop ≤ n.addr := List.rel_of_pairwise_cons hmiddle hnpost
      rw [hsize n hnmem]
      constructor
      · exact hhead n hn hf.free (hfree n hnmem hone)
      · unfold Block.stop blockSize at *
        omega
    · -- the neighbour in front
      rw [List.getLast?_map, Option.mem_map] at hy
      obtain ⟨q, hq, rfl⟩ := hy
      have hqpre := List.mem_of_getLast? hq
      have hqmem : q ∈ pre' ++ ([b'] ++ post') := List.mem_append_left _ hqpre
      have hle : q.stop ≤ b'.addr := hcross q hqpre b' (List.mem_cons_self ..)
      rw [hsize q hqmem]
      constructor
      · unfold Block.stop blockSize at *
        omega
      · exact hlast q hq (hfree q hqmem hone) hf.free

end Freed

/-! ## Runs -/

/-- One step of a run: the heap stays ordered, and a freed block touches no free neighbour. -/
theorem Described.step_told {a : HeapAction} (hd : Described s l frames) (ho : Ordered s.heap l)
    (hstep : HeapStep s a s') (htold : PrevTold s a) :
    ∃ l' frames', Described s' l' frames' ∧ Ordered s'.heap l' ∧ Coalesces s a s' := by
  cases hstep with
  | @kmalloc size p h hleft hcall =>
    obtain ⟨l', frames', hd', -⟩ := (kmalloc_served hd.shape hleft hcall).spec hd
    obtain ⟨l'', frames'', hs'', ho''⟩ := ho.kmalloc hd.shape hleft hcall
    obtain rfl := hd'.shape.unique hs''
    exact ⟨l', frames', hd', ho'', trivial⟩
  | @kfree p n hlive =>
    -- the address names a block, and `prev` names the one in front of it
    obtain ⟨b, hb, -, rfl, -⟩ := hd.live p n hlive
    obtain ⟨pre, post, rfl⟩ := List.append_of_mem hb
    have hd : Described s (pre ++ ([b] ++ post)) frames := hd
    have hpath := hd.shape.nextPath
    rw [List.map_append] at hpath
    have hprev := htold _ _ _ hpath rfl
    rw [← last_eq_getLastD] at hprev
    obtain ⟨pre', b', post', hfreed⟩ := kfree_freedBlock_of_told ho hd.shape hprev
    have hcoalesced := hfreed.coalescedAt ho hd.shape
    have hsize : s.heap.get (b.addr + blockSize - blockSize) .size = b.size := by
      rw [Nat.add_sub_cancel, hd.shape.header.size]
    rw [← hsize] at hcoalesced
    obtain ⟨hd', -⟩ := hd.freed hfreed.shape hfreed.kept
    have ho' := hfreed.ordered ho hd.shape
    generalize Pelikan.kfree s.heap (b.addr + blockSize) = k at hd' ho' hcoalesced ⊢
    exact ⟨_, frames, hd', ho', hcoalesced⟩
  | @write p n i v hlive hi =>
    obtain ⟨hd', -⟩ := hd.write hlive hi v
    refine ⟨l, frames, hd', ⟨ho.sorted, ho.parted, fun c hc => ?_, ho.below⟩, trivial⟩
    rw [hd.write_get hlive hi v hc]
    exact ho.prev c hc

theorem HeapState.Start.ordered (h : s.Start) : Described s [] ∅ ∧ Ordered s.heap [] :=
  ⟨h.described, .nil, .nil, nofun, nofun⟩

/-- The list is in order in every run whose frees meet the condition on `prev`. -/
theorem ordered_of_reachable (hr : (heapSystem.restrict PrevTold).Reachable s) :
    ∃ l frames, Described s l frames ∧ Ordered s.heap l := by
  refine hr.invariant (P := fun s => ∃ l frames, Described s l frames ∧ Ordered s.heap l)
    (fun s h => ⟨_, _, HeapState.Start.ordered h⟩) ?_
  rintro s a s' - ⟨l, frames, hd, ho⟩ ⟨htold, hstep⟩
  obtain ⟨l', frames', hd', ho', -⟩ := hd.step_told ho hstep htold
  exact ⟨l', frames', hd', ho'⟩

/-- In a run in which `prev` misleads no call of `kfree`, a freed block never touches a free
neighbour. -/
theorem coalesced_of_told {t : List (Taken HeapState HeapAction)} (hrun : heapSystem.Run t s)
    (htold : ∀ x ∈ t, PrevTold x.before x.action) :
    ∀ x ∈ t, Coalesces x.before x.action x.after := by
  induction hrun with
  | init h => exact fun x hx => absurd hx List.not_mem_nil
  | @step t s s' a hrun hstep ih =>
    rw [List.forall_mem_cons] at htold ⊢
    refine ⟨?_, ih htold.2⟩
    obtain ⟨l, frames, hd, ho⟩ := ordered_of_reachable (hrun.reachable_restrict htold.2)
    obtain ⟨-, -, -, -, hcoalesces⟩ := hd.step_told ho hstep htold.1
    exact hcoalesces

/-- Where the list is linked both ways, `prev` misleads nobody. -/
theorem prevTold_of_backed {a : HeapAction} (hs : Shape s.heap l frames)
    (hback : Backed s.heap 0 l) :
    PrevTold s a := by
  cases a with
  | kmalloc => trivial
  | kfree p =>
    rintro xs x ys hpath - -
    obtain ⟨pre, b, post, rfl, rfl, rfl, rfl⟩ := hs.split_of_path hpath
    rw [← last_eq_getLastD]
    exact (backed_append.mp hback).2.1
  | write => trivial

end

/-! ## Two runs -/

/-- A block is allocated and freed. -/
theorem coalesced_kmalloc_kfree : ∃ s s',
    heapSystem.Run [⟨s, .kfree 1048596, s'⟩, ⟨bootState, .kmalloc 100, s⟩] s' ∧
      CoalescedAt s'.heap 1048596 (s.heap.get 1048576 .size) := by
  obtain ⟨s, -, hrun, hlive, -⟩ := exists_kmalloc_run
  have hrun' := Run.step hrun (HeapStep.kfree hlive)
  have hkeeps : ∀ x ∈ [(⟨bootState, .kmalloc 100, s⟩ : Taken HeapState HeapAction)],
      KeepsPrev x.before x.action := by
    rw [List.forall_mem_singleton]
    exact not_splitsInside_of_head rfl
  obtain ⟨l, frames, hd, hback⟩ := backed_of_reachable (hrun.reachable_restrict hkeeps)
  have hcoalesced := coalesced_of_told hrun' (by
    rw [List.forall_mem_cons, List.forall_mem_singleton]
    exact ⟨prevTold_of_backed hd.shape hback, trivial⟩) _ (List.mem_cons_self ..)
  exact ⟨s, _, hrun', hcoalesced⟩

/-- The list when the second frame of `cutRun` is freed as well. -/
theorem cutRun_freed_words : (heapRun cutRun).map (fun s =>
    (s.live 1052692, s.heap.get 1052672 .size, [(kfree s.heap 1052692).head,
      (kfree s.heap 1052692).get 1048576 .next, (kfree s.heap 1052692).get 1048576 .free,
      (kfree s.heap 1052692).get 1048696 .next, (kfree s.heap 1052692).get 1048696 .free,
      (kfree s.heap 1052692).get 1048696 .size, (kfree s.heap 1052692).get 1052672 .next])) =
      some (some 4076, 4076, [1048576, 1048696, 0, 1052672, 1, 3956, 0]) := by decide +kernel

/-- Its `prev` word names the block that was cut, which is in use. The rest of that block is free,
and touches it. -/
theorem cutRun_not_coalesced :
    ∃ s s', heapSystem.Reachable s ∧ heapSystem.Step s (.kfree 1052692) s' ∧
      ¬ Coalesces s (.kfree 1052692) s' := by
  obtain ⟨s, hs, hwords⟩ := Option.map_eq_some_iff.mp cutRun_freed_words
  simp only [Prod.mk.injEq, List.cons.injEq, and_true] at hwords
  obtain ⟨hlive, hsize, hhead, hnext₀, hfree₀, hnext₁, hfree₁, hsize₁, hnext₂⟩ := hwords
  refine ⟨s, _, heapRun_reachable hs, .kfree hlive, ?_⟩
  have hnot : ¬ CoalescedAt (kfree s.heap 1052692) 1052692 4076 := by
    generalize kfree s.heap 1052692 = h at *
    rintro ⟨xs, z, ys, hpath, hfree, hlo, hhi, hapart⟩
    have hlist : NextPath h h.head [1048576, 1048696, 1052672] := by
      rw [hhead]
      simp [NextPath, hnext₀, hnext₁, hnext₂]
    have heq := hpath.unique hlist
    -- the freed block is the last of the three
    match xs with
    | [] =>
      obtain ⟨rfl, -⟩ := List.cons.inj heq
      rw [hfree₀] at hfree
      cases hfree
    | [_] =>
      simp only [List.cons_append, List.nil_append, List.cons.injEq] at heq
      obtain ⟨-, rfl, -⟩ := heq
      rw [hsize₁] at hhi
      exact absurd hhi (by decide)
    | [_, _] =>
      simp only [List.cons_append, List.nil_append, List.cons.injEq] at heq
      obtain ⟨-, rfl, rfl, -⟩ := heq
      have htouch := (hapart 1048696 (.inr rfl) hfree₁).2
      rw [hsize₁] at htouch
      exact htouch rfl
    | _ :: _ :: _ :: _ => simp at heq
  intro hcoalesces
  have hcoalesces : CoalescedAt _ 1052692 (s.heap.get 1052672 .size) := hcoalesces
  rw [hsize] at hcoalesces
  exact hnot hcoalesces

end Pelikan

end SystemsProjects

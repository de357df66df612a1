import SystemsProjects.Lib.Transition
import SystemsProjects.Pelikan.HeapSearch
import SystemsProjects.Pelikan.HeapFree

/-!
# Runs of the heap

`heapSystem`: calls of `kmalloc` and `kfree`, and stores of the clients into their own
payloads. A state carries the heap and the allocations that are live, with the sizes that
were asked for; the frame allocator always has a frame left.

The split of `kmalloc` never repairs `new_block->next->prev`. What follows from this:

- `listIntact_iff_not_splits`: the list of blocks is intact in all states of a run exactly
  when no `kmalloc` has cut a block in front of another one.
- `heap_isolated`: calls leave the live payloads alone in every run that frees only blocks
  whose `prev` word names the block in front of them.

Two invariants are kept apart. `Described` is what holds in all runs that free no block with a
stale `prev`: the list tiles the frames, and each allocation that is live is a block in use.
That the list is linked backwards as well is lost with the first cut in front of another block,
and this is what the equivalence is about: the state before decides it, by `SplitsInside`.
-/

namespace SystemsProjects

namespace Pelikan

open TransitionSystem

/-- The heap, and the size of each live allocation by its pointer. -/
structure HeapState where
  heap : Heap
  live : Nat → Option Nat

/-- The two calls, and a client's store into its payload. -/
inductive HeapAction where
  | kmalloc (size : Nat)
  | kfree (ptr : Nat)
  /-- A client stores `v` in the byte `i` of its payload. -/
  | write (ptr i : Nat) (v : BitVec 8)

/-- What they do. A client frees live pointers only, each once. -/
inductive HeapStep : HeapState → HeapAction → HeapState → Prop where
  | kmalloc {s : HeapState} {size p : Nat} {h : Heap} (hleft : frameLeft s.heap.bitmap = true)
      (hcall : Yields (Pelikan.kmalloc s.heap size) (p, h)) :
      HeapStep s (.kmalloc size) ⟨h, if p = 0 then s.live else Function.update s.live p (some size)⟩
  | kfree {s : HeapState} {p n : Nat} (hlive : s.live p = some n) :
      HeapStep s (.kfree p) ⟨Pelikan.kfree s.heap p, Function.update s.live p none⟩
  | write {s : HeapState} {p n i : Nat} {v : BitVec 8} (hlive : s.live p = some n) (hi : i < n) :
      HeapStep s (.write p i v)
        ⟨{ s.heap with mem := Function.update s.heap.mem (p + i) v }, s.live⟩

/-- No block yet. `pmm_init` keeps the frame 0 from being handed out. -/
def HeapState.Start (s : HeapState) : Prop :=
  s.heap.head = 0 ∧ bitAt s.heap.bitmap 0 = true ∧ ∀ p, s.live p = none

/-- The runs from a heap without a block on. -/
def heapSystem : TransitionSystem HeapState HeapAction := ⟨HeapState.Start, HeapStep⟩

/-! ## What is promised -/

/-- Following `next` from `a` visits the blocks of the path and ends. -/
def NextPath (h : Heap) : Nat → List Nat → Prop
  | a, [] => a = 0
  | a, b :: path => a ≠ 0 ∧ a = b ∧ NextPath h (h.get b .next) path

/-- The pointer belongs to a block on the list that is marked as in use. -/
def BlockInUse (h : Heap) (p : Nat) : Prop :=
  ∃ path, NextPath h h.head path ∧ ∃ b ∈ path, h.get b .free = 0 ∧ p = b + blockSize

/-- The list from `head` ends, visits no block twice, and is linked in both directions. -/
def ListIntact (h : Heap) : Prop :=
  ∃ path, NextPath h h.head path ∧ path.Nodup ∧ (h.head ≠ 0 → h.get h.head .prev = 0) ∧
    ∀ b ∈ path, h.get b .next ≠ 0 → h.get (h.get b .next) .prev = b

/-- The block fits the request. -/
def FitsAt (h : Heap) (size b : Nat) : Prop := h.get b .free = 1 ∧ size ≤ h.get b .size

/-- The first block on the list that fits the request is cut, and has another block behind it. -/
def SplitsInside (h : Heap) (size : Nat) : Prop :=
  0 < size ∧ size ≤ 4096 - blockSize ∧
    ∃ pre b post, NextPath h h.head (pre ++ b :: post) ∧ (∀ c ∈ pre, ¬ FitsAt h size c) ∧
      FitsAt h size b ∧ size + blockSize + 1 ≤ h.get b .size ∧ h.get b .next ≠ 0

/-- The step is no `kmalloc` that cuts a block in front of another one. -/
def KeepsPrev (s : HeapState) : HeapAction → Prop
  | .kmalloc size => ¬ SplitsInside s.heap size
  | _ => True

/-- The `prev` word of the block of the pointer names the block in front of it, 0 when it is
the first. -/
def NamesPrev (h : Heap) (p : Nat) : Prop :=
  ∃ pre b post, NextPath h h.head (pre ++ b :: post) ∧ p = b + blockSize ∧
    h.get b .prev = pre.getLastD 0

/-- The step frees no block whose `prev` word is stale. -/
def FreesNamed (s : HeapState) : HeapAction → Prop
  | .kfree p => NamesPrev s.heap p
  | _ => True

/-- A call leaves the payloads alone that are live before and after it. -/
def Isolated (s : HeapState) (a : HeapAction) (s' : HeapState) : Prop :=
  (∀ p i v, a ≠ .write p i v) →
    ∀ p n, s.live p = some n → s'.live p = some n →
      ∀ i, i < n → s'.heap.mem (p + i) = s.heap.mem (p + i)

section

variable {h h' : Heap} {b c : Block} {l pre post : List Block} {frames : Finset Nat}
  {size n p a e : Nat} {s s' : HeapState} {path path' : List Nat}

/-! ## Paths -/

theorem NextPath.unique (h₁ : NextPath h a path) (h₂ : NextPath h a path') : path = path' := by
  induction path generalizing a path' with
  | nil =>
    cases path' with
    | nil => rfl
    | cons b path' => exact absurd h₁ h₂.1
  | cons b path ih =>
    cases path' with
    | nil => exact absurd h₂ h₁.1
    | cons b' path' =>
      obtain rfl : b = b' := h₁.2.1.symm.trans h₂.2.1
      rw [ih h₁.2.2 h₂.2.2]

theorem Linked.nextPath (hl : Linked h l 0) (hne : ∀ b ∈ l, b.addr ≠ 0) :
    NextPath h (first l 0) (l.map Block.addr) := by
  induction l with
  | nil => rfl
  | cons b l ih =>
    refine ⟨hne b (List.mem_cons_self ..), rfl, ?_⟩
    rw [hl.1.next]
    exact ih hl.2 fun c hc => hne c (List.mem_cons_of_mem b hc)

/-- From the head on, they are the list that the code sees. -/
theorem Shape.nextPath (hs : Shape h l frames) : NextPath h h.head (l.map Block.addr) := by
  rw [hs.head_eq]
  exact hs.linked.nextPath fun _ hb => hs.addr_ne_zero hb

theorem last_eq_getLastD (l : List Block) (p : Nat) :
    last l p = (l.map Block.addr).getLastD p := by
  induction l generalizing p with
  | nil => rfl
  | cons b l ih =>
    rw [List.map_cons, List.getLastD_cons]
    exact ih b.addr

/-- A place on the path is a place on the list. -/
theorem Shape.split_of_path {xs ys : List Nat} {x : Nat} (hs : Shape h l frames)
    (hpath : NextPath h h.head (xs ++ x :: ys)) :
    ∃ pre b post, l = pre ++ ([b] ++ post) ∧ pre.map Block.addr = xs ∧ b.addr = x ∧
      post.map Block.addr = ys := by
  have heq := hs.nextPath.unique hpath
  obtain ⟨pre, rest, rfl, hpre, hrest⟩ := List.map_eq_append_iff.mp heq
  obtain ⟨b, post, rfl, hb, hpost⟩ := List.map_eq_cons_iff.mp hrest
  exact ⟨pre, b, post, rfl, hpre, hb, hpost⟩

/-- The links of the list, read off the path. -/
theorem backed_iff (hl : Linked h l 0) (hne : ∀ b ∈ l, b.addr ≠ 0) :
    Backed h p l ↔ (first l 0 ≠ 0 → h.get (first l 0) .prev = p) ∧
      ∀ b ∈ l, h.get b.addr .next ≠ 0 → h.get (h.get b.addr .next) .prev = b.addr := by
  induction l generalizing p with
  | nil =>
    exact ⟨fun _ => ⟨fun h => absurd rfl h, fun b hb => absurd hb List.not_mem_nil⟩,
      fun _ => trivial⟩
  | cons b l ih =>
    have hb := hne b (List.mem_cons_self ..)
    show h.get b.addr .prev = p ∧ Backed h b.addr l ↔ (b.addr ≠ 0 → h.get b.addr .prev = p) ∧ _
    rw [ih hl.2 fun c hc => hne c (List.mem_cons_of_mem b hc), List.forall_mem_cons, hl.1.next]
    exact and_congr_left fun _ => ⟨fun h _ => h, fun h => h hb⟩

/-- The list is intact when the backward links are right. -/
theorem listIntact_iff (hs : Shape h l frames) : ListIntact h ↔ Backed h 0 l := by
  rw [backed_iff hs.linked fun _ hb => hs.addr_ne_zero hb, ← hs.head_eq]
  constructor
  · rintro ⟨path, hpath, -, hhead, hlinks⟩
    obtain rfl := hs.nextPath.unique hpath
    exact ⟨hhead, fun b hb => hlinks b.addr (List.mem_map_of_mem hb)⟩
  · rintro ⟨hhead, hlinks⟩
    refine ⟨l.map Block.addr, hs.nextPath, ?_, hhead, fun b hb => ?_⟩
    · exact hs.nodup.map_on fun x hx y hy heq => hs.eq_of_addr hx hy heq
    · obtain ⟨c, hc, rfl⟩ := List.mem_map.mp hb
      exact hlinks c hc

/-! ## The condition on the list of blocks -/

theorem Linked.exists_header (hl : Linked h l e) (hb : b ∈ l) : ∃ next, Header h b next := by
  induction l with
  | nil => exact absurd hb List.not_mem_nil
  | cons c l ih =>
    rcases List.mem_cons.mp hb with rfl | hb
    · exact ⟨_, hl.1⟩
    · exact ih hl.2 hb

/-- The test of the search is the one on the block. -/
theorem Shape.fitsAt_iff (hs : Shape h l frames) (hb : b ∈ l) :
    FitsAt h size b.addr ↔ b.Fits size := by
  obtain ⟨next, hheader⟩ := hs.linked.exists_header hb
  unfold FitsAt Block.Fits
  rw [hheader.free, hheader.size, flag_eq_one_iff]

/-- A block is cut in front of another one. -/
theorem splitsInside_iff (hs : Shape h l frames) :
    SplitsInside h size ↔ 0 < size ∧ size ≤ 4096 - blockSize ∧
      ∃ pre b c post, l = pre ++ ([b] ++ c :: post) ∧ (∀ c ∈ pre, ¬ c.Fits size) ∧ b.Fits size ∧
        b.Cuts size := by
  refine and_congr_right fun _ => and_congr_right fun _ => ?_
  constructor
  · rintro ⟨xs, x, ys, hpath, hpre, hfits, hcuts, hnext⟩
    obtain ⟨pre, b, post, rfl, rfl, rfl, rfl⟩ := hs.split_of_path hpath
    have hheader := hs.header
    have hb : b ∈ pre ++ ([b] ++ post) := List.mem_append_right _ (List.mem_cons_self ..)
    rw [hheader.size] at hcuts
    rw [hheader.next] at hnext
    -- `next` is not 0, so a block follows
    cases post with
    | nil => exact absurd rfl hnext
    | cons c post =>
      refine ⟨pre, b, c, post, rfl, fun d hd hfits => ?_, (hs.fitsAt_iff hb).mp hfits, hcuts⟩
      exact hpre d.addr (List.mem_map_of_mem hd)
        ((hs.fitsAt_iff (List.mem_append_left _ hd)).mpr hfits)
  · rintro ⟨pre, b, c, post, rfl, hpre, hfits, hcuts⟩
    have hheader := hs.header
    have hb : b ∈ pre ++ ([b] ++ c :: post) := List.mem_append_right _ (List.mem_cons_self ..)
    have hc : c ∈ pre ++ ([b] ++ c :: post) :=
      List.mem_append_right _ (List.mem_append_right _ (List.mem_cons_self ..))
    have hpath := hs.nextPath
    rw [List.map_append] at hpath
    refine ⟨_, b.addr, _, hpath, fun x hx hfits => ?_, (hs.fitsAt_iff hb).mpr hfits, ?_, ?_⟩
    · obtain ⟨d, hd, rfl⟩ := List.mem_map.mp hx
      exact hpre d hd ((hs.fitsAt_iff (List.mem_append_left _ hd)).mp hfits)
    · rw [hheader.size]
      exact hcuts
    · rw [hheader.next]
      exact hs.addr_ne_zero hc

/-! ## What a call does -/

theorem search_mono (size : Nat) (n : Nat) (h : Heap) (current last : Nat) :
    Fueled.Approx (search size n h current last) (search size (n + 1) h current last) := by
  induction n generalizing h current last with
  | zero => exact .out_left _
  | succ n ih =>
    rw [search, search]
    by_cases hcurrent : current ≠ 0
    · rw [if_pos hcurrent, if_pos hcurrent]
      split_ifs
      · exact .refl _
      · exact .refl _
      · exact .refl _
      · exact ih ..
      · exact ih ..
    · rw [if_neg hcurrent, if_neg hcurrent]
      cases requestSpace h last with
      | done r =>
        show Fueled.Approx (if r.1 = 0 then _ else _) (if r.1 = 0 then _ else _)
        split_ifs
        · exact .refl _
        · exact ih ..
      | stop e => exact .refl _
      | out => exact .refl _

theorem kmalloc_mono (h : Heap) (size : Nat) : FuelMono (kmalloc h size) := by
  intro n
  unfold kmalloc
  split_ifs
  · exact .refl _
  · exact .refl _
  · cases requestSpace h 0 with
    | done r => exact search_mono ..
    | stop e => exact .refl _
    | out => exact .refl _
  · exact search_mono ..

/-- What a call of `kmalloc` does to a heap with the blocks `l`: the pointer it returns, and
the heap behind it. -/
inductive Served (h : Heap) (l : List Block) (frames : Finset Nat) (size : Nat) : Nat → Heap → Prop
  | ignored (hsize : size = 0 ∨ 4096 - blockSize < size) : Served h l frames size 0 h
  | fit {pre post : List Block} {b : Block} (hl : l = pre ++ ([b] ++ post)) (hpos : 0 < size)
      (hsize : size ≤ 4096 - blockSize) (hpre : ∀ c ∈ pre, ¬ c.Fits size) (hfits : b.Fits size) :
      Served h l frames size (b.addr + blockSize) (allocated h b size)
  | grow {f : Nat} {bitmap : Bitmap} (hnone : ∀ c ∈ l, ¬ c.Fits size) (hpos : 0 < size)
      (hsize : size ≤ 4096 - blockSize) (hf : f ∉ frames) (hlt : f < maxFrames) (hfpos : 0 < f)
      (hfree : bitAt h.bitmap f = false)
      (hbits : ∀ g, bitAt bitmap g = (decide (g = f) || bitAt h.bitmap g)) :
      Served h l frames size ((frameBlock f).addr + blockSize)
        (allocated (grownHeap h l f bitmap) (frameBlock f) size)

/-- A request for nothing, or for more than a frame holds, returns null. -/
theorem kmalloc_ignored (hsize : size = 0 ∨ 4096 - blockSize < size) :
    Yields (kmalloc h size) (0, h) := by
  refine ⟨0, ?_⟩
  unfold kmalloc
  rcases hsize with rfl | hsize
  · rfl
  · rw [if_pos hsize, ite_self]

/-- The call returns. -/
theorem kmalloc_yields (hs : Shape h l frames) (hleft : frameLeft h.bitmap = true) (size : Nat) :
    ∃ p h', Yields (kmalloc h size) (p, h') ∧ Served h l frames size p h' := by
  by_cases hbad : size = 0 ∨ 4096 - blockSize < size
  · exact ⟨0, h, kmalloc_ignored hbad, .ignored hbad⟩
  · have hpos : 0 < size := Nat.pos_of_ne_zero fun hzero => hbad (.inl hzero)
    have hsize : size ≤ 4096 - blockSize := Nat.le_of_not_lt fun hlt => hbad (.inr hlt)
    rcases exists_first_fit l size with hnone | ⟨pre, b, post, rfl, hpre, hfits⟩
    · obtain ⟨f, bitmap, hf, hlt, hfpos, hfree, -, hbits, hcall⟩ :=
        kmalloc_grow hs hpos hsize hnone hleft
      exact ⟨_, _, hcall, .grow hnone hpos hsize hf hlt hfpos hfree hbits⟩
    · exact ⟨_, _, kmalloc_fit hs hpos hsize hpre hfits, .fit rfl hpos hsize hpre hfits⟩

theorem kmalloc_served (hs : Shape h l frames) (hleft : frameLeft h.bitmap = true)
    (hcall : Yields (kmalloc h size) (p, h')) : Served h l frames size p h' := by
  obtain ⟨p₀, h₀, hcall₀, hserved⟩ := kmalloc_yields hs hleft size
  obtain ⟨rfl, rfl⟩ := Prod.mk.inj (hcall.unique (kmalloc_mono h size) hcall₀)
  exact hserved

/-! ## What every state is like -/

/-- The state has the blocks `l`, and each live allocation is one of them. -/
structure Described (s : HeapState) (l : List Block) (frames : Finset Nat) : Prop where
  shape : Shape s.heap l frames
  live : ∀ p n, s.live p = some n → ∃ b ∈ l, b.free = false ∧ p = b.addr + blockSize ∧ n ≤ b.size

theorem HeapState.Start.described (h : s.Start) : Described s [] ∅ where
  shape :=
    { head_eq := h.1
      linked := trivial
      tiles := .nil fun _ => Finset.notMem_empty _
      size_pos := fun _ hb => absurd hb List.not_mem_nil
      used := fun _ hf => absurd hf (Finset.notMem_empty _)
      zero_used := h.2.1 }
  live p n hlive := by
    rw [h.2.2 p] at hlive
    cases hlive

/-- A block in use stays on the list when a free one is taken. -/
theorem mem_taken (hc : c ∈ pre ++ ([b] ++ post)) (hne : c ≠ b) :
    c ∈ pre ++ (b.taken size ++ post) := by
  rcases List.mem_append.mp hc with hc | hc
  · exact List.mem_append_left _ hc
  · rcases List.mem_append.mp hc with hc | hc
    · exact absurd (List.mem_singleton.mp hc) hne
    · exact List.mem_append_right _ (List.mem_append_right _ hc)

/-- The block that has served a request is in use and large enough. -/
theorem exists_taken (hsize : size ≤ b.size) :
    ∃ c ∈ b.taken size, c.free = false ∧ c.addr = b.addr ∧ size ≤ c.size := by
  unfold Block.taken
  split
  · exact ⟨_, List.mem_cons_self .., rfl, rfl, Nat.le_refl _⟩
  · exact ⟨_, List.mem_cons_self .., rfl, rfl, hsize⟩

/-- A block handed out is live, with the size that was asked for. -/
theorem Described.allocated {live : Nat → Option Nat}
    (hd : Described ⟨h, live⟩ (pre ++ ([b] ++ post)) frames)
    (hpos : 0 < size) (hfits : b.Fits size) :
    Described ⟨allocated h b size, Function.update live (b.addr + blockSize) (some size)⟩
      (pre ++ (b.taken size ++ post)) frames where
  shape := hd.shape.allocated hpos
  live p n hlive := by
    by_cases hp : p = b.addr + blockSize
    · subst hp
      obtain rfl : size = n := by
        have hlive :
          Function.update live (b.addr + blockSize) (some size) (b.addr + blockSize) = _ :=
          hlive
        rw [Function.update_self] at hlive
        exact Option.some.inj hlive
      obtain ⟨c, hc, hfree, haddr, hsize⟩ := exists_taken hfits.2
      exact ⟨c, List.mem_append_right _ (List.mem_append_left _ hc), hfree, by rw [haddr], hsize⟩
    · have hlive : Function.update live (b.addr + blockSize) (some size) p = _ := hlive
      rw [Function.update_of_ne hp] at hlive
      obtain ⟨c, hc, hfree, haddr, hsize⟩ := hd.live p n hlive
      refine ⟨c, mem_taken hc ?_, hfree, haddr, hsize⟩
      rintro rfl
      rw [hfits.1] at hfree
      cases hfree

theorem Described.grow {live : Nat → Option Nat} {f : Nat} {bitmap : Bitmap}
    (hd : Described ⟨h, live⟩ l frames) (hf : f ∉ frames) (hlt : f < maxFrames) (hpos : 0 < f)
    (hbits : ∀ g, bitAt bitmap g = (decide (g = f) || bitAt h.bitmap g)) :
    Described ⟨grownHeap h l f bitmap, live⟩ (l ++ [frameBlock f]) (insert f frames) where
  shape := hd.shape.grow hf hlt hpos hbits
  live p n hlive := by
    obtain ⟨c, hc, hrest⟩ := hd.live p n hlive
    exact ⟨c, List.mem_append_left _ hc, hrest⟩

/-- What `kmalloc` promises: the blocks of the state behind it, the payloads of the blocks
that were in use, and the backward links unless a block was cut in front of another. -/
theorem Served.spec {live : Nat → Option Nat} (hserved : Served h l frames size p h')
    (hd : Described ⟨h, live⟩ l frames) :
    ∃ l' frames',
      Described ⟨h', if p = 0 then live else Function.update live p (some size)⟩ l' frames' ∧
      (∀ c ∈ l, c.free = false → PayloadKept h h' c) ∧
      (Backed h 0 l → ¬ SplitsInside h size → Backed h' 0 l') := by
  cases hserved with
  | ignored hsize => exact ⟨l, frames, hd, fun _ _ _ _ _ _ => rfl, fun hback _ => hback⟩
  | @fit pre post b hl hpos hsize hpre hfits =>
    subst hl
    -- a block of the list fits: cutting it spoils a `prev` only where another one follows
    have hb : b ∈ pre ++ ([b] ++ post) := List.mem_append_right _ (List.mem_cons_self ..)
    rw [if_neg (by unfold blockSize; omega)]
    refine ⟨_, _, hd.allocated hpos hfits, fun c hc hfree => ?_, fun hback hsplit => ?_⟩
    · refine payloadKept_allocated hd.shape hb hc ?_
      rintro rfl
      rw [hfits.1] at hfree
      cases hfree
    · refine hback.allocated hd.shape hpos fun hcuts => ?_
      cases post with
      | nil => rfl
      | cons d post =>
        refine absurd ?_ hsplit
        exact (splitsInside_iff hd.shape).mpr
          ⟨hpos, hsize, pre, b, d, post, rfl, hpre, hfits, hcuts⟩
  | @grow f bitmap hnone hpos hsize hf hlt hfpos _ hbits =>
    -- the new block is the last one, so nothing follows it
    have hgrown : Described ⟨grownHeap h l f bitmap, live⟩ (l ++ ([frameBlock f] ++ []))
        (insert f frames) := hd.grow hf hlt hfpos hbits
    have hmem : frameBlock f ∈ l ++ ([frameBlock f] ++ []) :=
      List.mem_append_right _ (List.mem_cons_self ..)
    rw [if_neg (by unfold blockSize; omega)]
    refine ⟨_, _, hgrown.allocated hpos (frameBlock_fits hsize),
      fun c hc hfree => ?_, fun hback _ => ?_⟩
    · refine (payloadKept_grow hd.shape hf hlt hc).trans
        (payloadKept_allocated hgrown.shape hmem (List.mem_append_left _ hc) ?_)
      rintro rfl
      cases hfree
    · have hback : Backed (grownHeap h l f bitmap) 0 (l ++ ([frameBlock f] ++ [])) :=
        hback.grow hd.shape hf hlt
      exact hback.allocated hgrown.shape hpos fun _ => rfl

/-- The `prev` word of a block on the list names the one in front of it. -/
theorem namesPrev_iff (hs : Shape h l frames) :
    NamesPrev h p ↔ ∃ pre b post, l = pre ++ ([b] ++ post) ∧ p = b.addr + blockSize ∧
      h.get b.addr .prev = last pre 0 := by
  constructor
  · rintro ⟨xs, x, ys, hpath, hp, hprev⟩
    obtain ⟨pre, b, post, rfl, rfl, rfl, rfl⟩ := hs.split_of_path hpath
    exact ⟨pre, b, post, rfl, hp, by rw [hprev, last_eq_getLastD]⟩
  · rintro ⟨pre, b, post, rfl, hp, hprev⟩
    have hpath := hs.nextPath
    rw [List.map_append] at hpath
    exact ⟨_, b.addr, _, hpath, hp, by rw [hprev, last_eq_getLastD]⟩

/-- A block is freed, and the blocks in use that are not freed are kept. -/
theorem Described.freed {k : Heap} {pre' post' : List Block} {b' : Block}
    (hd : Described s (pre ++ ([b] ++ post)) frames)
    (hshape : Shape k (pre' ++ ([b'] ++ post')) frames)
    (hkept : ∀ c ∈ pre ++ post, c.free = false → c ∈ pre' ++ post' ∧ PayloadKept s.heap k c) :
    Described ⟨k, Function.update s.live (b.addr + blockSize) none⟩ (pre' ++ ([b'] ++ post'))
        frames ∧
      ∀ c ∈ pre ++ ([b] ++ post), c.free = false → c.addr + blockSize ≠ b.addr + blockSize →
        PayloadKept s.heap k c := by
  have hother : ∀ c ∈ pre ++ ([b] ++ post), c.addr + blockSize ≠ b.addr + blockSize →
      c ∈ pre ++ post := by
    intro c hc hne
    refine mem_others hc ?_
    rintro rfl
    exact hne rfl
  refine ⟨⟨hshape, fun q n hlive => ?_⟩, fun c hc hfree hne => ?_⟩
  · have hne : q ≠ b.addr + blockSize := by
      rintro rfl
      have hlive : Function.update s.live (b.addr + blockSize) none (b.addr + blockSize) = _ :=
        hlive
      rw [Function.update_self] at hlive
      cases hlive
    have hlive : Function.update s.live (b.addr + blockSize) none q = _ := hlive
    rw [Function.update_of_ne hne] at hlive
    obtain ⟨c, hc, hfree, rfl, hsize⟩ := hd.live q n hlive
    exact ⟨c, mem_middle (hkept c (hother c hc hne) hfree).1 _, hfree, rfl, hsize⟩
  · exact (hkept c (hother c hc hne) hfree).2

/-- What `kfree` promises when the `prev` word is right. -/
theorem Described.kfree (hd : Described s l frames) (hnames : NamesPrev s.heap p) :
    ∃ l', Described ⟨Pelikan.kfree s.heap p, Function.update s.live p none⟩ l' frames ∧
      (∀ c ∈ l, c.free = false → c.addr + blockSize ≠ p →
        PayloadKept s.heap (Pelikan.kfree s.heap p) c) ∧
      (Backed s.heap 0 l → Backed (Pelikan.kfree s.heap p) 0 l') := by
  obtain ⟨pre, b, post, rfl, rfl, hprev⟩ := (namesPrev_iff hd.shape).mp hnames
  obtain ⟨pre', b', post', hshape, -, hback, hkept⟩ := kfree_spec hd.shape hprev
  obtain ⟨hd', hpayload⟩ := hd.freed hshape hkept
  exact ⟨_, hd', hpayload, hback⟩

/-- A client's store changes no header. -/
theorem Described.write_get {i : Nat} (hd : Described s l frames) (hlive : s.live p = some n)
    (hi : i < n) (v : BitVec 8) (hc : c ∈ l) (f : Field) :
    Heap.get { s.heap with mem := Function.update s.heap.mem (p + i) v } c.addr f =
      s.heap.get c.addr f := by
  obtain ⟨b, hb, -, rfl, hsize⟩ := hd.live p n hlive
  refine get_congr (hd.shape.header_le hc) fun a ha ha' => Function.update_of_ne ?_ _ _
  by_cases hbc : b = c
  · subst hbc
    omega
  · have hapart := hd.shape.apart hb hc hbc
    unfold Block.stop at hapart
    omega

/-- A write into a live payload changes no header. -/
theorem Described.write {i : Nat} (hd : Described s l frames) (hlive : s.live p = some n)
    (hi : i < n) (v : BitVec 8) :
    Described ⟨{ s.heap with mem := Function.update s.heap.mem (p + i) v }, s.live⟩ l frames ∧
      (Backed s.heap 0 l →
        Backed { s.heap with mem := Function.update s.heap.mem (p + i) v } 0 l) := by
  have hs := hd.shape
  refine ⟨⟨?_, hd.live⟩, fun hback => hback.congr fun c hc => hd.write_get hlive hi v hc _⟩
  exact ⟨hs.head_eq, hs.linked.congr fun c hc f _ => hd.write_get hlive hi v hc f, hs.tiles,
    hs.size_pos, hs.used, hs.zero_used⟩

/-- What every step promises that frees no block with a stale `prev`. -/
theorem Described.step {a : HeapAction} (hd : Described s l frames) (hstep : HeapStep s a s')
    (hfrees : FreesNamed s a) :
    ∃ l' frames', Described s' l' frames' ∧ Isolated s a s' ∧
      (Backed s.heap 0 l → KeepsPrev s a → Backed s'.heap 0 l') := by
  cases hstep with
  | @kmalloc size p h hleft hcall =>
    obtain ⟨l', frames', hd', hkept, hback⟩ := (kmalloc_served hd.shape hleft hcall).spec hd
    refine ⟨l', frames', hd', fun _ q n hlive _ i hi => ?_, hback⟩
    obtain ⟨c, hc, hfree, rfl, hsize⟩ := hd.live q n hlive
    exact hkept c hc hfree _ (by omega) (by unfold Block.stop; omega)
  | @kfree p n hlive =>
    obtain ⟨l', hd', hkept, hback⟩ := hd.kfree hfrees
    refine ⟨l', frames, hd', fun _ q n hlive hlive' i hi => ?_, fun h _ => hback h⟩
    obtain ⟨c, hc, hfree, rfl, hsize⟩ := hd.live q n hlive
    -- what has been freed is not live behind the call
    have hne : c.addr + blockSize ≠ p := by
      rintro rfl
      have hlive' : Function.update s.live (c.addr + blockSize) none (c.addr + blockSize) = _ :=
        hlive'
      rw [Function.update_self] at hlive'
      cases hlive'
    exact hkept c hc hfree hne _ (by omega) (by unfold Block.stop; omega)
  | @write p n i v hlive hi =>
    obtain ⟨hd', hback⟩ := hd.write hlive hi v
    exact ⟨l, frames, hd', fun hcall => absurd rfl (hcall p i v), fun h _ => hback h⟩

/-! ## Isolation -/

/-- The heap is described in every run that frees no block with a stale `prev`. -/
theorem described_of_reachable (hr : (heapSystem.restrict FreesNamed).Reachable s) :
    ∃ l frames, Described s l frames := by
  refine hr.invariant (P := fun s => ∃ l frames, Described s l frames)
    (fun s h => ⟨_, _, HeapState.Start.described h⟩) ?_
  rintro s a s' - ⟨l, frames, hd⟩ ⟨hfrees, hstep⟩
  obtain ⟨l', frames', hd', -⟩ := hd.step hstep hfrees
  exact ⟨l', frames', hd'⟩

/-- In a run that frees only blocks with the right `prev`, no call changes a live payload. -/
theorem heap_isolated {t : List (Taken HeapState HeapAction)} (hrun : heapSystem.Run t s)
    (hfrees : ∀ x ∈ t, FreesNamed x.before x.action) :
    ∀ x ∈ t, Isolated x.before x.action x.after := by
  induction hrun with
  | init h => exact fun x hx => absurd hx List.not_mem_nil
  | @step t s s' a hrun hstep ih =>
    rw [List.forall_mem_cons] at hfrees ⊢
    refine ⟨?_, ih hfrees.2⟩
    obtain ⟨l, frames, hd⟩ := described_of_reachable (hrun.reachable_restrict hfrees.2)
    obtain ⟨-, -, -, hisolated, -⟩ := hd.step hstep hfrees.1
    exact hisolated

/-! ## Links -/

/-- When the backward links are right, every live block can be freed. -/
theorem namesPrev_of_live (hd : Described s l frames) (hback : Backed s.heap 0 l)
    (hlive : s.live p = some n) : NamesPrev s.heap p := by
  obtain ⟨b, hb, -, rfl, -⟩ := hd.live p n hlive
  obtain ⟨pre, post, rfl⟩ := List.append_of_mem hb
  exact (namesPrev_iff (l := pre ++ ([b] ++ post)) hd.shape).mpr
    ⟨pre, b, post, rfl, rfl, (backed_append.mp hback).2.1⟩

theorem freesNamed_of_backed {a : HeapAction} (hd : Described s l frames)
    (hback : Backed s.heap 0 l) (hstep : HeapStep s a s') : FreesNamed s a := by
  cases hstep with
  | kmalloc => trivial
  | kfree hlive => exact namesPrev_of_live hd hback hlive
  | write => trivial

/-- The backward links stay right as long as `kmalloc` cuts no block in front of another. -/
theorem backed_of_reachable (hr : (heapSystem.restrict KeepsPrev).Reachable s) :
    ∃ l frames, Described s l frames ∧ Backed s.heap 0 l := by
  refine hr.invariant (P := fun s => ∃ l frames, Described s l frames ∧ Backed s.heap 0 l)
    (fun s h => ⟨_, _, HeapState.Start.described h, trivial⟩) ?_
  rintro s a s' - ⟨l, frames, hd, hback⟩ ⟨hkeeps, hstep⟩
  obtain ⟨l', frames', hd', -, hback'⟩ := hd.step hstep (freesNamed_of_backed hd hback hstep)
  exact ⟨l', frames', hd', hback' hback hkeeps⟩

/-- A block behind one that is cut keeps its `prev` word. -/
theorem not_listIntact_of_splits (hd : Described s l frames) (hback : Backed s.heap 0 l)
    (hsplits : SplitsInside s.heap size)
    (hcall : Yields (Pelikan.kmalloc s.heap size) (p, h')) : ¬ ListIntact h' := by
  obtain ⟨hpos, hsize, pre, b, c, post, rfl, hpre, hfits, hcuts⟩ :=
    (splitsInside_iff hd.shape).mp hsplits
  have hfit := kmalloc_fit hd.shape hpos hsize hpre hfits
  obtain ⟨-, rfl⟩ := Prod.mk.inj (hcall.unique (kmalloc_mono s.heap size) hfit)
  have hshape : Shape (allocated s.heap b size) _ frames := hd.shape.allocated hpos
  have hprev : (allocated s.heap b size).get c.addr .prev = b.addr :=
    prev_allocated hd.shape hback
  rw [listIntact_iff hshape, show b.taken size = _ from if_pos hcuts, backed_append]
  -- what stands in front of `c` now is the rest of the block
  rintro ⟨-, -, -, hrest, -⟩
  rw [hprev] at hrest
  have hrest : b.addr = b.addr + blockSize + size := hrest
  unfold blockSize at hrest
  omega

/-- The list of blocks is intact in every state of a run exactly when no `kmalloc` of it has
cut a block in front of another one. -/
theorem listIntact_iff_not_splits {t : List (Taken HeapState HeapAction)}
    (hrun : heapSystem.Run t s) :
    ((∀ x ∈ t, ListIntact x.before.heap ∧ ListIntact x.after.heap) ∧ ListIntact s.heap) ↔
      ∀ x ∈ t, KeepsPrev x.before x.action := by
  have hintact : ∀ {l frames} {s : HeapState}, Described s l frames → Backed s.heap 0 l →
      ListIntact s.heap := fun hd hback => (listIntact_iff hd.shape).mpr hback
  have hsteps := hrun.forall_iff (P := KeepsPrev)
    (Q := fun s _ s' => ListIntact s.heap ∧ ListIntact s'.heap) ?_
  · rw [hsteps]
    refine ⟨And.left, fun hkeeps => ⟨hkeeps, ?_⟩⟩
    obtain ⟨l, frames, hd, hback⟩ := backed_of_reachable (hrun.reachable_restrict hkeeps)
    exact hintact hd hback
  · intro s a s' hr hstep
    obtain ⟨l, frames, hd, hback⟩ := backed_of_reachable hr
    constructor
    · rintro ⟨-, hlist⟩
      cases hstep with
      | kmalloc hleft hcall =>
        exact fun hsplits => not_listIntact_of_splits hd hback hsplits hcall hlist
      | kfree hlive => trivial
      | write hlive hi => trivial
    · intro hkeeps
      obtain ⟨l', frames', hd', -, hback'⟩ := hd.step hstep (freesNamed_of_backed hd hback hstep)
      exact ⟨hintact hd hback, hintact hd' (hback' hback hkeeps)⟩

end

/-! ## Concrete runs -/

/-- The step as a function. The search gets fuel for a list of 15 blocks. -/
def heapExec (s : HeapState) : HeapAction → Option HeapState
  | .kmalloc size =>
    match frameLeft s.heap.bitmap, kmalloc s.heap size 16 with
    | true, .done (p, h) => some ⟨h, if p = 0 then s.live else Function.update s.live p (some size)⟩
    | _, _ => none
  | .kfree p =>
    match s.live p with
    | some _ => some ⟨Pelikan.kfree s.heap p, Function.update s.live p none⟩
    | none => none
  | .write p i v =>
    match s.live p with
    | some n =>
      if i < n then some ⟨{ s.heap with mem := Function.update s.heap.mem (p + i) v }, s.live⟩
      else none
    | none => none

theorem heapExec_step (s : HeapState) (a : HeapAction) (s' : HeapState)
    (h : heapExec s a = some s') : heapSystem.Step s a s' := by
  cases a with
  | kmalloc size =>
    simp only [heapExec] at h
    split at h
    · next p k hleft hcall =>
      obtain rfl := Option.some.inj h
      exact .kmalloc hleft ⟨16, hcall⟩
    · cases h
  | kfree p =>
    simp only [heapExec] at h
    split at h
    · next n hlive =>
      obtain rfl := Option.some.inj h
      exact .kfree hlive
    · cases h
  | write p i v =>
    simp only [heapExec] at h
    split at h
    · next n hlive =>
      split at h
      · next hi =>
        obtain rfl := Option.some.inj h
        exact .write hlive hi
      · cases h
    · cases h

/-- Memory full of zeros, and the frames of the first MiB in use. -/
def bootState : HeapState where
  heap := ⟨fun _ => 0, 0, fun i => if i < 32 then 255 else 0⟩
  live := fun _ => none

theorem bootState_start : bootState.Start := ⟨rfl, by decide, fun _ => rfl⟩

/-- The state behind a run from `bootState`. -/
def heapRun (as : List HeapAction) : Option HeapState := runActions heapExec as bootState

theorem heapRun_reachable {as : List HeapAction} {s : HeapState} (h : heapRun as = some s) :
    heapSystem.Reachable s :=
  (Reachable.init bootState_start).runActions (fun _ a _ hs => ⟨a, heapExec_step _ _ _ hs⟩) h

/-- Two whole frames, and the first of them cut for 100 bytes after it has been freed. -/
def cutRun : List HeapAction := [.kmalloc 4076, .kmalloc 4076, .kfree 1048596, .kmalloc 100]

/-- `head`, the words `next` of the first two blocks, and `prev` of the third. -/
theorem cutRun_words : (heapRun cutRun).map (fun s => (s.heap.head, s.heap.get 1048576 .next,
    s.heap.get 1048696 .next, s.heap.get 1052672 .prev)) =
      some (1048576, 1048696, 1052672, 1048576) := by decide +kernel

/-- The second frame still names the head, not the rest of the first frame. -/
theorem cutRun_not_intact : ∃ s, heapSystem.Reachable s ∧ ¬ ListIntact s.heap := by
  obtain ⟨s, hs, hwords⟩ := Option.map_eq_some_iff.mp cutRun_words
  simp only [Prod.mk.injEq] at hwords
  obtain ⟨hhead, hnext, hrest, hprev⟩ := hwords
  refine ⟨s, heapRun_reachable hs, ?_⟩
  rintro ⟨path, hpath, -, -, hlinks⟩
  rw [hhead] at hpath
  cases path with
  | nil => exact absurd (show (1048576 : Nat) = 0 from hpath) (by decide)
  | cons b path =>
    obtain ⟨-, rfl, hpath⟩ := hpath
    rw [hnext] at hpath
    cases path with
    | nil => exact absurd (show (1048696 : Nat) = 0 from hpath) (by decide)
    | cons c path =>
      obtain ⟨-, rfl, -⟩ := hpath
      have hlink := hlinks 1048696 (by simp)
      rw [hrest, hprev] at hlink
      exact absurd (hlink (by decide)) (by decide)

/-- The first block is 100 bytes long, the second one of 300 bytes is freed and cut twice, so
that the block behind still names its header at 1048696. That header is merged into the first
block, and a client stores the words 300 and 1 there. -/
def strayRun : List HeapAction :=
  [.kmalloc 100, .kmalloc 300, .kmalloc 100, .kfree 1048716, .kmalloc 100, .kmalloc 180,
    .kfree 1048596, .kfree 1048716, .kmalloc 220, .write 1048596 100 44, .write 1048596 101 1,
    .write 1048596 102 0, .write 1048596 103 0, .write 1048596 104 1, .write 1048596 105 0,
    .write 1048596 106 0, .write 1048596 107 0]

/-- The two allocations, and the byte of the one before and after the other is freed. -/
theorem strayRun_bytes : (heapRun strayRun).map (fun s => (s.live 1049036, s.live 1048596,
    s.heap.mem 1048696, (Pelikan.kfree s.heap 1049036).mem 1048696)) =
      some (some 100, some 220, 44, 116) := by decide +kernel

/-- The next `kfree` merges its block with the words of that client. -/
theorem strayRun_not_isolated :
    ∃ s s', heapSystem.Reachable s ∧ heapSystem.Step s (.kfree 1049036) s' ∧
      ¬ Isolated s (.kfree 1049036) s' := by
  obtain ⟨s, hs, hbytes⟩ := Option.map_eq_some_iff.mp strayRun_bytes
  simp only [Prod.mk.injEq] at hbytes
  obtain ⟨hfreed, hlive, hbefore, hafter⟩ := hbytes
  refine ⟨s, _, heapRun_reachable hs, .kfree hfreed, fun hisolated => ?_⟩
  have hlive' : Function.update s.live 1049036 none 1048596 = some 220 :=
    (Function.update_of_ne (by decide) ..).trans hlive
  have hbyte := (hisolated nofun 1048596 220 hlive hlive' 100 (by decide)).symm
  rw [hbefore] at hbyte
  exact absurd (hbyte.trans hafter) (by decide)

/-! The two theorems on runs of two calls. -/

theorem kmalloc_kmalloc_live : ((heapExec bootState (.kmalloc 100)).bind fun s =>
    (heapExec s (.kmalloc 50)).map fun s' => (s.live 1048596, s'.live 1048596)) =
      some (some 100, some 100) := by decide +kernel

/-- A state behind `kmalloc(100)`, and one behind `kmalloc(50)` after it. -/
theorem exists_kmalloc_run : ∃ s s',
    heapSystem.Run [⟨bootState, .kmalloc 100, s⟩] s ∧ s.live 1048596 = some 100 ∧
      heapSystem.Step s (.kmalloc 50) s' ∧ s'.live 1048596 = some 100 := by
  obtain ⟨s, hs, hrest⟩ := Option.bind_eq_some_iff.mp kmalloc_kmalloc_live
  obtain ⟨s', hs', hlive⟩ := Option.map_eq_some_iff.mp hrest
  obtain ⟨hlive, hlive'⟩ := Prod.mk.inj hlive
  exact ⟨s, s', .step (.init bootState_start) (heapExec_step _ _ _ hs), hlive,
    heapExec_step _ _ _ hs', hlive'⟩

/-- No block is cut in front of another one when there is none. -/
theorem not_splitsInside_of_head {h : Heap} {size : Nat} (hhead : h.head = 0) :
    ¬ SplitsInside h size := by
  rintro ⟨-, -, pre, b, post, hpath, -⟩
  rw [hhead] at hpath
  cases pre with
  | nil => exact hpath.1 rfl
  | cons c pre => exact hpath.1 rfl

theorem listIntact_kmalloc_kfree : ∃ s s',
    heapSystem.Run [⟨s, .kfree 1048596, s'⟩, ⟨bootState, .kmalloc 100, s⟩] s' ∧
      ListIntact s.heap ∧ ListIntact s'.heap := by
  obtain ⟨s, -, hrun, hlive, -⟩ := exists_kmalloc_run
  have hrun' := Run.step hrun (HeapStep.kfree hlive)
  have hintact := (listIntact_iff_not_splits hrun').mpr ?_
  · exact ⟨s, _, hrun', hintact.1 _ (List.mem_cons_self ..)⟩
  · rw [List.forall_mem_cons, List.forall_mem_singleton]
    exact ⟨trivial, not_splitsInside_of_head rfl⟩

theorem heap_isolated_kmalloc_kmalloc : ∃ s s',
    heapSystem.Run [⟨s, .kmalloc 50, s'⟩, ⟨bootState, .kmalloc 100, s⟩] s' ∧
      ∀ i, i < 100 → s'.heap.mem (1048596 + i) = s.heap.mem (1048596 + i) := by
  obtain ⟨s, s', hrun, hlive, hstep, hlive'⟩ := exists_kmalloc_run
  have hisolated := heap_isolated (hrun.step hstep) (by
    rw [List.forall_mem_cons, List.forall_mem_singleton]
    exact ⟨trivial, trivial⟩) _ (List.mem_cons_self ..)
  exact ⟨s, s', hrun.step hstep, hisolated nofun 1048596 100 hlive hlive'⟩

end Pelikan

end SystemsProjects

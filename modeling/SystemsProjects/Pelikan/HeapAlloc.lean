import SystemsProjects.Pelikan.HeapBlocks

/-!
# Allocation

What `kmalloc` does to the list of blocks: it takes the first block that is free and
large enough, or a new frame when there is none, and cuts off what is left when that is enough
for another block (`allocated`, `Block.taken`).

The forward links and the tiling are kept in every case (`Shape.allocated`). The backward
links are kept unless a block is cut that has another one behind it
(`Backed.allocated`, `prev_allocated`): nothing writes the `prev` word of that one.

Everything is said about the words of headers first (`splitBlock_get`, `allocated_get`), for a
block anywhere in the memory, and then about the list. The order of the writes matters in one
place only: the header of the rest is written inside the payload of the block, and does not meet
the header of another one, since blocks do not overlap.
-/

namespace SystemsProjects

namespace Pelikan

/-- The block can serve a request. -/
def Block.Fits (b : Block) (size : Nat) : Prop := b.free = true ∧ size ≤ b.size

instance (b : Block) (size : Nat) : Decidable (b.Fits size) := inferInstanceAs (Decidable (_ ∧ _))

/-- Too large for the request by another block. -/
def Block.Cuts (b : Block) (size : Nat) : Prop := size + blockSize + 1 ≤ b.size

instance (b : Block) (size : Nat) : Decidable (b.Cuts size) := inferInstanceAs (Decidable (_ ≤ _))

/-- What is behind the cut. -/
def Block.rest (b : Block) (size : Nat) : Block :=
  ⟨b.addr + blockSize + size, b.size - size - blockSize, true⟩

/-- What becomes of a block that serves a request. -/
def Block.taken (b : Block) (size : Nat) : List Block :=
  if b.Cuts size then [⟨b.addr, size, false⟩, b.rest size] else [⟨b.addr, b.size, false⟩]

/-- The heap behind the search that has found the block. -/
def allocated (h : Heap) (b : Block) (size : Nat) : Heap :=
  if b.Cuts size then (splitBlock h b.addr size).set b.addr .magic heapMagicAlloc
  else (h.set b.addr .free 0).set b.addr .magic heapMagicAlloc

/-- The payload of the block has not changed. -/
def PayloadKept (h h' : Heap) (b : Block) : Prop :=
  ∀ a, b.addr + blockSize ≤ a → a < b.stop → h'.mem a = h.mem a

section

variable {h h' : Heap} {b c : Block} {l pre post : List Block} {frames : Finset Nat}
  {size n p next : Nat}

theorem heapMagic_lt : heapMagicAlloc < 4294967296 ∧ heapMagicFree < 4294967296 := by decide

/-! ## Cutting a block -/

/-- What the words of the two headers are after the cut. -/
theorem splitBlock_get (hb : Header h b next) (hpos : 0 < size) (hcuts : b.Cuts size)
    (hle : b.stop ≤ 134217728) (hnext : next < 4294967296) :
    Header (splitBlock h b.addr size) (b.rest size) next ∧
      (splitBlock h b.addr size).get (b.rest size).addr .prev = b.addr ∧
      (splitBlock h b.addr size).get b.addr .size = size ∧
      (splitBlock h b.addr size).get b.addr .free = 0 ∧
      (splitBlock h b.addr size).get b.addr .next = (b.rest size).addr ∧
      (splitBlock h b.addr size).get b.addr .prev = h.get b.addr .prev := by
  have hcut : size + 20 + 1 ≤ b.size := hcuts
  have hstop : b.addr + 20 + b.size ≤ 134217728 := hle
  have hnew : u32 (b.addr + blockSize + size) = (b.rest size).addr := Nat.mod_eq_of_lt (by
    unfold blockSize
    omega)
  have hlen : u32 (b.size + 4294967296 - size - blockSize) = (b.rest size).size := by
    unfold u32 blockSize Block.rest
    show (b.size + 4294967296 - size - 20) % 4294967296 = b.size - size - 20
    omega
  have hapart : HeadersApart (b.rest size).addr b.addr := .inr (Nat.le_add_right ..)
  have hapart' := hapart.symm
  have hb32 : b.addr + blockSize ≤ 4294967296 := by
    unfold blockSize
    omega
  have hr32 : (b.rest size).addr + blockSize ≤ 4294967296 := by
    show b.addr + 20 + size + 20 ≤ _
    omega
  have hrest : (b.rest size).size < 4294967296 := by
    show b.size - size - 20 < _
    omega
  have haddr : (b.rest size).addr < 4294967296 := by
    show b.addr + 20 + size < _
    omega
  have hbaddr : b.addr < 4294967296 := by omega
  have hsize : size < 4294967296 := by omega
  have hmagic := heapMagic_lt.2
  -- the two headers are apart, so that every write is seen in its own field only
  unfold splitBlock
  rw [hnew, hb.size, hlen]
  refine ⟨⟨?_, ?_, ?_, ?_⟩, ?_, ?_, ?_, ?_, ?_⟩ <;>
    simp (disch := first | assumption | decide) only [get_set_self, get_set_of_field_ne,
      get_set_of_apart, hb.next] <;>
    rfl

/-- Cutting a block writes inside it. -/
theorem splitBlock_mem (hcuts : b.Cuts size) (hle : b.stop ≤ 134217728) {a : Nat}
    (ha : ¬ b.span.Has a) : (splitBlock h b.addr size).mem a = h.mem a := by
  have hcut : size + 20 + 1 ≤ b.size := hcuts
  have hstop : b.addr + 20 + b.size ≤ 134217728 := hle
  have hout : a < b.addr ∨ b.addr + 20 + b.size ≤ a := by
    rcases Nat.lt_or_ge a b.addr with hlt | hge
    · exact .inl hlt
    · exact .inr (Nat.le_of_not_lt fun hlt => ha ⟨hge, hlt⟩)
  have hnew : u32 (b.addr + blockSize + size) = b.addr + 20 + size := Nat.mod_eq_of_lt (by
    unfold blockSize
    omega)
  have hb32 : b.addr + blockSize ≤ 4294967296 := by
    unfold blockSize
    omega
  have hr32 : b.addr + 20 + size + blockSize ≤ 4294967296 := by
    unfold blockSize
    omega
  have hb : a < b.addr ∨ b.addr + blockSize ≤ a := by
    unfold blockSize
    omega
  have hr : a < b.addr + 20 + size ∨ b.addr + 20 + size + blockSize ≤ a := by
    unfold blockSize
    omega
  unfold splitBlock
  rw [hnew]
  simp only [set_mem_of_notMem hb32 hb, set_mem_of_notMem hr32 hr]

/-- Serving a request writes inside the block. -/
theorem allocated_mem (hle : b.stop ≤ 134217728) {a : Nat} (ha : ¬ b.span.Has a) :
    (allocated h b size).mem a = h.mem a := by
  have hstop : b.addr + 20 + b.size ≤ 134217728 := hle
  have hb32 : b.addr + blockSize ≤ 4294967296 := by
    unfold blockSize
    omega
  have hout : a < b.addr ∨ b.addr + blockSize ≤ a := by
    rcases Nat.lt_or_ge a b.addr with hlt | hge
    · exact .inl hlt
    · refine .inr (Nat.le_of_not_lt fun hlt => ha ⟨hge, ?_⟩)
      show a < b.addr + blockSize + b.size
      omega
  unfold allocated
  split
  · next hcuts => rw [set_mem_of_notMem hb32 hout, splitBlock_mem hcuts hle ha]
  · rw [set_mem_of_notMem hb32 hout, set_mem_of_notMem hb32 hout]

/-- The headers of the other blocks stay. -/
theorem allocated_get (hs : Shape h l frames) (hb : b ∈ l) (hc : c ∈ l) (hne : c ≠ b) (f : Field) :
    (allocated h b size).get c.addr f = h.get c.addr f := by
  have hapart := hs.apart hc hb hne
  refine get_congr (hs.header_le hc) fun a ha ha' => allocated_mem (hs.bounds hb).2 ?_
  rintro ⟨hge, hlt⟩
  have hlt : a < b.stop := hlt
  have hge : b.addr ≤ a := hge
  unfold Block.stop at *
  omega

@[simp] theorem allocated_head : (allocated h b size).head = h.head := by
  unfold allocated
  split <;> rfl

@[simp] theorem allocated_bitmap : (allocated h b size).bitmap = h.bitmap := by
  unfold allocated
  split <;> rfl

/-- The block's own header, and that of the rest. -/
theorem allocated_linked (hb : Header h b next) (hpos : 0 < size)
    (hle : b.stop ≤ 134217728) (hnext : next < 4294967296) :
    Linked (allocated h b size) (b.taken size) next := by
  have hb32 : b.addr + blockSize ≤ 4294967296 := by
    unfold Block.stop at hle
    omega
  unfold allocated Block.taken
  split
  · next hcuts =>
    obtain ⟨hrest, -, hsize, hfree, hnext', -⟩ := splitBlock_get hb hpos hcuts hle hnext
    have hapart : HeadersApart b.addr (b.rest size).addr := .inl (Nat.le_add_right ..)
    have hcut : size + 20 + 1 ≤ b.size := hcuts
    have hr32 : (b.rest size).addr + blockSize ≤ 4294967296 := by
      show b.addr + 20 + size + 20 ≤ _
      unfold Block.stop blockSize at hle
      omega
    refine ⟨⟨?_, ?_, get_set_self heapMagic_lt.1, ?_⟩,
      hrest.congr fun f _ => get_set_of_apart hb32 hr32 hapart, trivial⟩
    · simp (disch := decide) only [get_set_of_field_ne, hsize]
    · simp (disch := decide) only [get_set_of_field_ne, hfree]
      rfl
    · simp (disch := decide) only [get_set_of_field_ne, hnext']
      rfl
  · refine ⟨⟨?_, ?_, get_set_self heapMagic_lt.1, ?_⟩, trivial⟩
    · simp (disch := decide) only [get_set_of_field_ne, hb.size]
    · simp (disch := decide) only [get_set_of_field_ne, get_set_self]
      rfl
    · simp (disch := decide) only [get_set_of_field_ne, hb.next]
      rfl

/-- `prev` of the block, and of the rest. -/
theorem allocated_prev (hb : Header h b next) (hpos : 0 < size) (hle : b.stop ≤ 134217728)
    (hnext : next < 4294967296) :
    (allocated h b size).get b.addr .prev = h.get b.addr .prev ∧
      (b.Cuts size → (allocated h b size).get (b.rest size).addr .prev = b.addr) := by
  unfold allocated
  split
  · next hcuts =>
    obtain ⟨-, hrest, -, -, -, hprev⟩ := splitBlock_get hb hpos hcuts hle hnext
    have hcut : size + 20 + 1 ≤ b.size := hcuts
    have hstop : b.addr + 20 + b.size ≤ 134217728 := hle
    have hb32 : b.addr + blockSize ≤ 4294967296 := by
      unfold blockSize
      omega
    have hr32 : (b.rest size).addr + blockSize ≤ 4294967296 := by
      show b.addr + 20 + size + 20 ≤ _
      omega
    have hapart : HeadersApart b.addr (b.rest size).addr := .inl (Nat.le_add_right ..)
    constructor
    · simp (disch := decide) only [get_set_of_field_ne, hprev]
    · intro _
      rw [get_set_of_apart hb32 hr32 hapart, hrest]
  · next hcuts =>
    refine ⟨?_, fun h => absurd h hcuts⟩
    simp (disch := decide) only [get_set_of_field_ne]

/-- The parts of a split block tile what the block did. -/
theorem taken_tiles {S : Nat → Prop} [DecidablePred S]
    (h : Tiles ((pre ++ ([b] ++ post)).map Block.span) S) :
    Tiles ((pre ++ (b.taken size ++ post)).map Block.span) S := by
  rw [List.map_append, List.map_append] at h ⊢
  unfold Block.taken
  split
  · next hcuts =>
    have hcut : size + 20 + 1 ≤ b.size := hcuts
    have hstop : (b.rest size).stop = b.stop := by
      show b.addr + 20 + size + 20 + (b.size - size - 20) = b.addr + 20 + b.size
      omega
    have hspan : (b.rest size).span = ⟨b.addr + 20 + size, b.stop⟩ := congrArg (Span.mk _) hstop
    show Tiles (_ ++ ⟨b.addr, b.addr + 20 + size⟩ :: (b.rest size).span :: _) S
    rw [hspan]
    refine (Tiles.cut_iff (by omega) ?_).mpr h
    show b.addr + 20 + size ≤ b.addr + 20 + b.size
    omega
  · exact h

/-! ## The list behind the call -/

/-- Serving a request keeps the shape of the heap. -/
theorem Shape.allocated (hs : Shape h (pre ++ ([b] ++ post)) frames) (hpos : 0 < size) :
    Shape (allocated h b size) (pre ++ (b.taken size ++ post)) frames := by
  have hmem : b ∈ pre ++ ([b] ++ post) := List.mem_append_right _ (List.mem_cons_self ..)
  have hsize := hs.size_pos b hmem
  have hheader : Header h b (first post 0) := (linked_append.mp hs.linked).2.1
  have hnext : first post 0 < 4294967296 := hheader.next ▸ get_lt ..
  refine hs.replace allocated_bitmap allocated_head ?_
    (allocated_linked hheader hpos (hs.bounds hmem).2 hnext) ?_ (taken_tiles hs.tiles) ?_
  · unfold Block.taken
    split <;> rfl
  · intro c hc f _
    have hcm : c ∈ pre ++ ([b] ++ post) := by
      rcases List.mem_append.mp hc with hc | hc
      · exact List.mem_append_left _ hc
      · exact List.mem_append_right _ (List.mem_append_right _ hc)
    exact allocated_get hs hmem hcm (hs.ne_of_mem hc) f
  · intro c hc
    unfold Block.taken at hc
    split at hc
    · next hcuts =>
      have hcut : size + 20 + 1 ≤ b.size := hcuts
      rcases List.mem_pair.mp hc with rfl | rfl
      · exact hpos
      · show 0 < b.size - size - 20
        omega
    · rw [List.mem_singleton.mp hc]
      exact hsize

/-- The payloads of the other blocks stay. -/
theorem payloadKept_allocated (hs : Shape h l frames) (hb : b ∈ l) (hc : c ∈ l) (hne : c ≠ b) :
    PayloadKept h (Pelikan.allocated h b size) c := by
  intro a ha ha'
  have hapart := hs.apart hc hb hne
  refine allocated_mem (hs.bounds hb).2 ?_
  rintro ⟨hge, hlt⟩
  have hlt : a < b.stop := hlt
  have hge : b.addr ≤ a := hge
  omega

/-- The backward links are kept when nothing is cut, or the last block. -/
theorem Backed.allocated (hs : Shape h (pre ++ ([b] ++ post)) frames) (hpos : 0 < size)
    (hback : Backed h 0 (pre ++ ([b] ++ post))) (hlast : b.Cuts size → post = []) :
    Backed (allocated h b size) 0 (pre ++ (b.taken size ++ post)) := by
  have hmem : b ∈ pre ++ ([b] ++ post) := List.mem_append_right _ (List.mem_cons_self ..)
  have hheader : Header h b (first post 0) := (linked_append.mp hs.linked).2.1
  have hnext : first post 0 < 4294967296 := hheader.next ▸ get_lt ..
  obtain ⟨hprev, hrest⟩ := allocated_prev hheader hpos (hs.bounds hmem).2 hnext
  have hother : ∀ c ∈ pre ++ post, ∀ f,
      (Pelikan.allocated h b size).get c.addr f = h.get c.addr f := by
    intro c hc f
    refine allocated_get hs hmem ?_ (hs.ne_of_mem hc) f
    rcases List.mem_append.mp hc with hc | hc
    · exact List.mem_append_left _ hc
    · exact List.mem_append_right _ (List.mem_append_right _ hc)
  rw [backed_append] at hback ⊢
  obtain ⟨hpre, hb, hpost⟩ := hback
  refine ⟨hpre.congr fun c hc => hother c (List.mem_append_left post hc) _, ?_⟩
  have hpost' := hpost.congr fun c hc => hother c (List.mem_append_right pre hc) .prev
  unfold Block.taken
  split
  · next hcuts =>
    obtain rfl := hlast hcuts
    exact ⟨hprev.trans hb, hrest hcuts, trivial⟩
  · exact ⟨hprev.trans hb, hpost'⟩

/-- When a block is cut in front of another, that one still names the whole block. -/
theorem prev_allocated (hs : Shape h (pre ++ ([b] ++ c :: post)) frames)
    (hback : Backed h 0 (pre ++ ([b] ++ c :: post))) :
    (Pelikan.allocated h b size).get c.addr .prev = b.addr := by
  have hmem : b ∈ pre ++ ([b] ++ c :: post) := List.mem_append_right _ (List.mem_cons_self ..)
  have hcm : c ∈ pre ++ ([b] ++ c :: post) :=
    List.mem_append_right _ (List.mem_append_right _ (List.mem_cons_self ..))
  have hne : c ≠ b := hs.ne_of_mem (List.mem_append_right _ (List.mem_cons_self ..))
  rw [allocated_get hs hmem hcm hne]
  exact (backed_append.mp hback).2.2.1

end

end Pelikan

end SystemsProjects

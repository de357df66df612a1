import SystemsProjects.Pelikan.HeapAlloc

/-!
# The search of `kmalloc`

`kmalloc` walks along the list (`search_pass`) to the first block that fits
(`search_take`), or to the end, where it appends a new frame (`requestSpace_eq`). Put together:
the block that is taken stands on the list of the old heap (`kmalloc_fit`), or it is the frame
by which the list has grown (`kmalloc_grow`, `grownHeap`).

No header of the heap reaches into a frame that the heap does not have
(`Shape.headersApart_frame`), so the list grows at its end and all else stays. Up to here `prev`
is only written and never read.
-/

namespace SystemsProjects

namespace Pelikan

/-- `pmm_alloc_frame` has a frame to hand out. -/
def frameLeft (b : Bitmap) : Bool :=
  match pmmAllocFrame b with
  | .ok (r, _) => r ≠ noFrame
  | .error _ => false

/-- A new frame as a block. -/
def frameBlock (f : Nat) : Block := ⟨f * 4096, 4096 - blockSize, true⟩

section

variable {h h' : Heap} {b c : Block} {l pre post : List Block} {frames : Finset Nat}
  {size n p e next f : Nat}

/-! ## Walking -/

/-- A block that does not fit is passed. -/
theorem search_skip (hb : Header h b next) (hne : b.addr ≠ 0) (hsize : size ≤ 4096 - blockSize)
    (hfits : ¬ b.Fits size) :
    search size (n + 1) h b.addr p = search size n h next b.addr := by
  rw [search, if_pos hne, hb.free, hb.size, hb.next]
  by_cases hfree : b.free = true
  · have hlt : b.size < size := Nat.lt_of_not_le fun hle => hfits ⟨hfree, hle⟩
    have hflag : b.flag = 1 := if_pos hfree
    have hcut : ¬ u32 (size + blockSize + 1) ≤ b.size := by
      unfold u32 blockSize at *
      omega
    rw [if_pos hflag, if_neg (by omega), if_neg hcut, if_neg (by omega)]
  · have hflag : b.flag ≠ 1 := by
      unfold Block.flag
      rw [if_neg hfree]
      exact Nat.zero_ne_one
    rw [if_neg hflag]

/-- A block that fits is taken. -/
theorem search_take (hb : Header h b next) (hne : b.addr ≠ 0) (hsize : size ≤ 4096 - blockSize)
    (hle : b.stop ≤ 134217728) (hfits : b.Fits size) :
    search size (n + 1) h b.addr p = .done (b.addr + blockSize, allocated h b size) := by
  have hflag : b.flag = 1 := if_pos hfits.1
  have hfit := hfits.2
  have hptr : u32 (b.addr + blockSize) = b.addr + blockSize := Nat.mod_eq_of_lt (by
    unfold Block.stop at hle
    omega)
  have hsum : u32 (size + blockSize + 1) = size + blockSize + 1 := Nat.mod_eq_of_lt (by
    unfold blockSize at *
    omega)
  rw [search, if_pos hne, hb.free, hb.size, if_pos hflag, hptr, hsum]
  by_cases hcuts : b.Cuts size
  · have hcut : size + blockSize + 1 ≤ b.size := hcuts
    have hheap : allocated h b size = _ := if_pos hcuts
    rw [if_neg (by omega), if_pos hcut, hheap]
  · -- an exact fit and a rest that is too small are served alike
    have hcut : ¬ size + blockSize + 1 ≤ b.size := hcuts
    have hheap : allocated h b size = _ := if_neg hcuts
    by_cases heq : b.size = size
    · rw [if_pos heq, hheap]
    · rw [if_neg heq, if_neg hcut, if_pos (by omega), hheap]

/-- The walk past blocks that do not fit. -/
theorem search_pass (hl : Linked h l e) (hne : ∀ c ∈ l, c.addr ≠ 0)
    (hsize : size ≤ 4096 - blockSize) (hfits : ∀ c ∈ l, ¬ c.Fits size) :
    search size (n + l.length) h (first l e) p = search size n h e (last l p) := by
  induction l generalizing p with
  | nil => rfl
  | cons b l ih =>
    have hb := List.mem_cons_self (a := b) (l := l)
    show search size (n + l.length + 1) h b.addr p = search size n h e (last l b.addr)
    rw [search_skip hl.1 (hne b hb) hsize (hfits b hb)]
    exact ih hl.2 (fun c hc => hne c (List.mem_cons_of_mem b hc))
      fun c hc => hfits c (List.mem_cons_of_mem b hc)

/-! ## A new frame -/

/-- No block of the heap reaches into a frame it does not have. -/
theorem Shape.apart_frame (hs : Shape h l frames) (hf : f ∉ frames) (hc : c ∈ l) :
    c.stop ≤ f * 4096 ∨ f * 4096 + 4096 ≤ c.addr := by
  have hpos := hs.size_pos c hc
  have happart : c.span.Apart ⟨f * 4096, f * 4096 + 4096⟩ := by
    intro a ha hfa
    have hin : a / 4096 ∈ frames := hs.tiles.covered hc ha
    have hlo : f * 4096 ≤ a := hfa.1
    have hhi : a < f * 4096 + 4096 := hfa.2
    have heq : a / 4096 = f := by omega
    exact hf (heq ▸ hin)
  refine happart.le_or_le ?_ ?_
  · show c.addr < c.addr + 20 + c.size
    omega
  · show f * 4096 < f * 4096 + 4096
    omega

/-- The tiling with one frame more. -/
theorem Shape.tiles_frame (hs : Shape h l frames) (hf : f ∉ frames) :
    Tiles ((l ++ [frameBlock f]).map Block.span) (fun a => a / 4096 ∈ insert f frames) := by
  rw [List.map_append]
  refine (hs.tiles.append (Tiles.singleton (frameBlock f).span) ?_).congr fun a => ?_
  · rintro a ha ⟨hlo, hhi⟩
    have hlo : f * 4096 ≤ a := hlo
    have hhi : a < f * 4096 + 20 + (4096 - 20) := hhi
    have heq : a / 4096 = f := by omega
    exact hf (heq ▸ ha)
  · rw [Finset.mem_insert, or_comm]
    refine or_congr_right ⟨fun heq => ?_, fun hhas => ?_⟩
    · subst heq
      refine ⟨?_, ?_⟩
      · show a / 4096 * 4096 ≤ a
        omega
      · show a < a / 4096 * 4096 + 20 + (4096 - 20)
        omega
    · have hlo : f * 4096 ≤ a := hhas.1
      have hhi : a < f * 4096 + 20 + (4096 - 20) := hhas.2
      omega

@[simp] theorem linkFrame_head {block : Nat} : (linkFrame h block p).head = h.head := by
  unfold linkFrame
  split <;> rfl

@[simp] theorem linkFrame_bitmap {block : Nat} : (linkFrame h block p).bitmap = h.bitmap := by
  unfold linkFrame
  split <;> rfl

/-- The new header, with `prev` set. -/
theorem linkFrame_header (hle : b.addr + blockSize ≤ 4294967296) (hsize : b.size = 4096 - blockSize)
    (hfree : b.free = true) (hp : p ≠ 0 → p + blockSize ≤ 4294967296 ∧ HeadersApart p b.addr) :
    Header (linkFrame h b.addr p) b 0 ∧ (linkFrame h b.addr p).get b.addr .prev = p := by
  have hmagic := heapMagic_lt.2
  have hflag : b.flag = 1 := if_pos hfree
  have hbmagic : b.magic = heapMagicFree := if_pos hfree
  have hsize' : 4096 - blockSize < 4294967296 := by decide
  unfold linkFrame
  by_cases hzero : p = 0
  · subst hzero
    rw [if_neg (not_not.mpr rfl)]
    refine ⟨⟨?_, ?_, ?_, ?_⟩, ?_⟩ <;>
      simp (disch := first | assumption | decide) only [get_set_self, get_set_of_field_ne, hsize,
        hflag, hbmagic]
  · obtain ⟨hp32, hapart⟩ := hp hzero
    have hp : p < 4294967296 := by
      unfold blockSize at hp32
      omega
    rw [if_pos hzero]
    refine ⟨⟨?_, ?_, ?_, ?_⟩, ?_⟩ <;>
      simp (disch := first | assumption | decide) only [get_set_self, get_set_of_field_ne,
        get_set_of_apart, hsize, hflag, hbmagic]

/-- The last block is linked to the new one. -/
theorem linkFrame_next {block : Nat} (hne : p ≠ 0) (hblock : block < 4294967296) :
    (linkFrame h block p).get p .next = block := by
  unfold linkFrame
  rw [if_pos hne]
  exact get_set_self hblock

/-- The other words of the other headers stay. -/
theorem linkFrame_get {block a : Nat} {g : Field} (hle : block + blockSize ≤ 4294967296)
    (ha : a + blockSize ≤ 4294967296) (hapart : HeadersApart block a)
    (hp : p ≠ 0 → p = a ∧ g ≠ .next ∨ p + blockSize ≤ 4294967296 ∧ HeadersApart p a) :
    (linkFrame h block p).get a g = h.get a g := by
  unfold linkFrame
  by_cases hzero : p = 0
  · subst hzero
    rw [if_neg (not_not.mpr rfl)]
    simp (disch := assumption) only [get_set_of_apart]
  · rw [if_pos hzero]
    rcases hp hzero with ⟨rfl, hg⟩ | ⟨hp32, hpa⟩
    · rw [get_set_of_field_ne hg.symm]
      simp (disch := assumption) only [get_set_of_apart]
    · simp (disch := assumption) only [get_set_of_apart]

/-- Only the new header and the link to it are written. -/
theorem linkFrame_mem {block a : Nat} (hle : block + blockSize ≤ 4294967296)
    (ha : a < block ∨ block + blockSize ≤ a)
    (hp : p ≠ 0 → p + blockSize ≤ 4294967296 ∧ (a < p ∨ p + blockSize ≤ a)) :
    (linkFrame h block p).mem a = h.mem a := by
  unfold linkFrame
  by_cases hzero : p = 0
  · rw [if_neg (not_not.mpr hzero)]
    simp only [set_mem_of_notMem hle ha]
  · obtain ⟨hp32, hpa⟩ := hp hzero
    rw [if_pos hzero]
    simp only [set_mem_of_notMem hle ha, set_mem_of_notMem hp32 hpa]

/-! ## The list with a new frame -/

/-- The heap behind a call of `request_space` that got the frame `f`. -/
def grownHeap (h : Heap) (l : List Block) (f : Nat) (bitmap : Bitmap) : Heap :=
  { linkFrame { h with bitmap } (f * 4096) (last l 0) with head := first l (f * 4096) }

@[simp] theorem grownHeap_bitmap {bitmap : Bitmap} : (grownHeap h l f bitmap).bitmap = bitmap :=
  linkFrame_bitmap

section Grow

variable {bitmap : Bitmap}

theorem frame_le (hlt : f < maxFrames) : f * 4096 + blockSize ≤ 4294967296 := by
  unfold maxFrames at hlt
  unfold blockSize
  omega

/-- A new frame does not meet the header of a block. -/
theorem Shape.headersApart_frame (hs : Shape h l frames) (hf : f ∉ frames) (hc : c ∈ l) :
    HeadersApart (f * 4096) c.addr := by
  have happart := hs.apart_frame hf hc
  unfold HeadersApart blockSize
  unfold Block.stop blockSize at happart
  omega

/-- The last block is on the list, and its header does not overlap that of another one or
the new one. -/
theorem Shape.last_apart (hs : Shape h l frames) (hf : f ∉ frames) (hne : last l 0 ≠ 0) :
    last l 0 + blockSize ≤ 4294967296 ∧ HeadersApart (last l 0) (f * 4096) ∧
      ∀ c ∈ l, last l 0 ≠ c.addr → HeadersApart (last l 0) c.addr := by
  rcases last_cases l with rfl | ⟨z, hz, hlast⟩
  · exact absurd rfl hne
  · rw [hlast]
    refine ⟨hs.header_le hz, (hs.headersApart_frame hf hz).symm, fun c hc hca => ?_⟩
    refine hs.headersApart hz hc ?_
    rintro rfl
    exact hca rfl

/-- The words of the old headers stay, but for the link of the last one. -/
theorem Shape.linkFrame_get (hs : Shape h l frames) (hf : f ∉ frames) (hlt : f < maxFrames)
    (hc : c ∈ l) {g : Field} (hg : last l 0 = c.addr → g ≠ .next) :
    (linkFrame { h with bitmap } (f * 4096) (last l 0)).get c.addr g = h.get c.addr g := by
  refine (Pelikan.linkFrame_get (frame_le hlt) (hs.header_le hc) (hs.headersApart_frame hf hc)
    fun hne => ?_).trans rfl
  obtain ⟨hle, -, hother⟩ := hs.last_apart hf hne
  by_cases hca : last l 0 = c.addr
  · exact .inl ⟨hca, hg hca⟩
  · exact .inr ⟨hle, hother c hc hca⟩

theorem Shape.linkFrame_header (hs : Shape h l frames) (hf : f ∉ frames) (hlt : f < maxFrames) :
    Header (linkFrame { h with bitmap } (f * 4096) (last l 0)) (frameBlock f) 0 ∧
      (linkFrame { h with bitmap } (f * 4096) (last l 0)).get (f * 4096) .prev = last l 0 := by
  refine Pelikan.linkFrame_header (b := frameBlock f) (frame_le hlt) rfl rfl fun hne => ?_
  obtain ⟨hle, hapart, -⟩ := hs.last_apart hf hne
  exact ⟨hle, hapart⟩

theorem Shape.linkFrame_linked (hs : Shape h l frames) (hf : f ∉ frames) (hlt : f < maxFrames) :
    Linked (linkFrame { h with bitmap } (f * 4096) (last l 0)) (l ++ [frameBlock f]) 0 := by
  rw [linked_append]
  refine ⟨?_, (hs.linkFrame_header hf hlt).1, trivial⟩
  rcases List.eq_nil_or_concat l with rfl | ⟨l', z, rfl⟩
  · trivial
  · rw [List.concat_eq_append] at hs ⊢
    have hz : z ∈ l' ++ [z] := List.mem_append_right _ (List.mem_cons_self ..)
    have hlast : last (l' ++ [z]) 0 = z.addr := by
      rw [last_append]
      rfl
    have hne : last (l' ++ [z]) 0 ≠ 0 := by
      have hbounds := (hs.bounds hz).1
      omega
    refine hs.linked.relink (fun g _ hg => hs.linkFrame_get hf hlt hz fun _ => hg) ?_ ?_
    · rw [← hlast]
      refine linkFrame_next hne ?_
      have hle := frame_le hlt
      unfold blockSize at hle
      omega
    · intro c hc g _
      have hcm : c ∈ l' ++ [z] := List.mem_append_left _ hc
      refine hs.linkFrame_get hf hlt hcm fun heq => ?_
      have hcz := hs.eq_of_addr hz hcm (hlast.symm.trans heq)
      subst hcz
      have hnodup := List.nodup_append.mp hs.nodup
      exact absurd rfl (hnodup.2.2 z hc z (List.mem_cons_self ..))

/-- The heap with one frame more. The caller of `request_space` sets the head of an empty
list. -/
theorem Shape.grow (hs : Shape h l frames) (hf : f ∉ frames) (hlt : f < maxFrames)
    (hpos : 0 < f) (hbits : ∀ g, bitAt bitmap g = (decide (g = f) || bitAt h.bitmap g)) :
    Shape (grownHeap h l f bitmap) (l ++ [frameBlock f]) (insert f frames) where
  head_eq := (first_append l [frameBlock f] 0).symm
  linked := (hs.linkFrame_linked hf hlt).congr fun _ _ _ _ => rfl
  tiles := hs.tiles_frame hf
  size_pos c hc := by
    rcases List.mem_append.mp hc with hc | hc
    · exact hs.size_pos c hc
    · rw [List.mem_singleton.mp hc]
      show 0 < 4096 - blockSize
      decide
  used g hg := by
    show 0 < g ∧ g < maxFrames ∧ bitAt (Pelikan.linkFrame _ _ _).bitmap g = true
    rw [linkFrame_bitmap, hbits]
    rcases Finset.mem_insert.mp hg with rfl | hg
    · exact ⟨hpos, hlt, by simp⟩
    · obtain ⟨hgpos, hglt, hbit⟩ := hs.used g hg
      exact ⟨hgpos, hglt, by simp [hbit]⟩
  zero_used := by
    show bitAt (Pelikan.linkFrame _ _ _).bitmap 0 = true
    rw [linkFrame_bitmap, hbits, hs.zero_used, Bool.or_true]

/-- The head of a list that is not empty stays. -/
theorem grownHeap_of_head (hhead : h.head = first l (f * 4096)) :
    grownHeap h l f bitmap = linkFrame { h with bitmap } (f * 4096) (last l 0) := by
  have hlink : ∀ k : Heap, k.head = h.head → { k with head := first l (f * 4096) } = k := by
    rintro ⟨mem, head, bitmap⟩ rfl
    rw [hhead]
  exact hlink _ linkFrame_head

/-- The new frame points back to the last block. -/
theorem Backed.grow (hback : Backed h 0 l) (hs : Shape h l frames) (hf : f ∉ frames)
    (hlt : f < maxFrames) : Backed (grownHeap h l f bitmap) 0 (l ++ [frameBlock f]) := by
  rw [backed_append]
  refine ⟨hback.congr fun c hc => hs.linkFrame_get hf hlt hc fun _ => nofun, ?_, trivial⟩
  exact (hs.linkFrame_header hf hlt).2

theorem payloadKept_grow (hs : Shape h l frames) (hf : f ∉ frames) (hlt : f < maxFrames)
    (hc : c ∈ l) : PayloadKept h (grownHeap h l f bitmap) c := by
  intro a ha ha'
  have happart := hs.apart_frame hf hc
  refine (linkFrame_mem (frame_le hlt) ?_ fun hne => ?_).trans rfl
  · unfold blockSize at *
    omega
  · rcases last_cases l with rfl | ⟨z, hz, hlast⟩
    · exact absurd rfl hne
    · rw [hlast]
      refine ⟨hs.header_le hz, ?_⟩
      by_cases hzc : z = c
      · subst hzc
        exact .inr ha
      · have hzapart := hs.apart hz hc hzc
        unfold Block.stop at *
        omega

end Grow

/-! ## The call -/

/-- `request_space` gets the first free frame, which the heap does not have. -/
theorem requestSpace_eq (hs : Shape h l frames) (hleft : frameLeft h.bitmap = true) (p : Nat) :
    ∃ f bitmap, f ∉ frames ∧ f < maxFrames ∧ 0 < f ∧ bitAt h.bitmap f = false ∧
      (∀ g, g < f → bitAt h.bitmap g = true) ∧
      (∀ g, bitAt bitmap g = (decide (g = f) || bitAt h.bitmap g)) ∧
      requestSpace h p = .done (f * 4096, linkFrame { h with bitmap } (f * 4096) p) := by
  unfold frameLeft pmmAllocFrame at hleft
  rcases allocFrameFrom_spec h.bitmap maxFrames 0 (Nat.zero_add _) with
    ⟨f, bitmap, -, hlt, hfree, hused, halloc, hbits⟩ | ⟨-, halloc⟩
  · have hne : f ∉ frames := by
      intro hmem
      rw [(hs.used f hmem).2.2] at hfree
      cases hfree
    have hpos : 0 < f := by
      rcases Nat.eq_zero_or_pos f with rfl | hpos
      · rw [hs.zero_used] at hfree
        cases hfree
      · exact hpos
    refine ⟨f, bitmap, hne, hlt, hpos, hfree, fun g hg => hused g (Nat.zero_le g) hg, hbits, ?_⟩
    unfold requestSpace pmmAllocFrame
    rw [halloc]
    show (if (frameAddr f).toNat = 0 then _ else _) = _
    rw [frameAddr_toNat hlt, if_neg (by omega)]
  · rw [halloc] at hleft
    exact absurd hleft (by simp)

/-- The first block that fits, if there is one. -/
theorem exists_first_fit (l : List Block) (size : Nat) :
    (∀ c ∈ l, ¬ c.Fits size) ∨
      ∃ pre b post, l = pre ++ ([b] ++ post) ∧ (∀ c ∈ pre, ¬ c.Fits size) ∧ b.Fits size := by
  induction l with
  | nil => exact .inl fun c hc => absurd hc List.not_mem_nil
  | cons b l ih =>
    by_cases hb : b.Fits size
    · exact .inr ⟨[], b, l, rfl, fun c hc => absurd hc List.not_mem_nil, hb⟩
    · have hcons :
        ∀ {l' : List Block}, (∀ c ∈ l', ¬ c.Fits size) → ∀ c ∈ b :: l', ¬ c.Fits size := by
        intro l' hl' c hc
        rcases List.mem_cons.mp hc with rfl | hc
        · exact hb
        · exact hl' c hc
      rcases ih with hnone | ⟨pre, b', post, rfl, hpre, hb'⟩
      · exact .inl (hcons hnone)
      · exact .inr ⟨b :: pre, b', post, rfl, hcons hpre, hb'⟩

/-- A request that is served is a search from the head on. -/
theorem kmalloc_eq_search (hpos : 0 < size) (hsize : size ≤ 4096 - blockSize)
    (hhead : h.head ≠ 0) (n : Nat) : kmalloc h size n = search size n h h.head 0 := by
  unfold kmalloc
  rw [if_neg (by omega), if_neg (by omega), if_neg hhead]

/-- A request that a block on the list can serve. -/
theorem kmalloc_fit (hs : Shape h (pre ++ ([b] ++ post)) frames) (hpos : 0 < size)
    (hsize : size ≤ 4096 - blockSize) (hpre : ∀ c ∈ pre, ¬ c.Fits size) (hfits : b.Fits size) :
    Yields (kmalloc h size) (b.addr + blockSize, allocated h b size) := by
  have hb : b ∈ pre ++ ([b] ++ post) := List.mem_append_right _ (List.mem_cons_self ..)
  have hhead : h.head = first pre b.addr := by
    rw [hs.head_eq, first_append]
    rfl
  have hne : h.head ≠ 0 := by
    rw [hhead]
    cases pre with
    | nil => exact hs.addr_ne_zero hb
    | cons c pre => exact hs.addr_ne_zero (List.mem_cons_self ..)
  have hlinked : Linked h pre b.addr := (linked_append.mp hs.linked).1
  refine ⟨1 + pre.length, ?_⟩
  rw [kmalloc_eq_search hpos hsize hne, hhead,
    search_pass hlinked (fun c hc => hs.addr_ne_zero (List.mem_append_left _ hc)) hsize hpre]
  exact search_take hs.header (hs.addr_ne_zero hb) hsize (hs.bounds hb).2 hfits

/-- The block of a new frame fits every request. -/
theorem frameBlock_fits (hsize : size ≤ 4096 - blockSize) : (frameBlock f).Fits size := ⟨rfl, hsize⟩

/-- A request that no block on the list can serve. -/
theorem kmalloc_grow (hs : Shape h l frames) (hpos : 0 < size) (hsize : size ≤ 4096 - blockSize)
    (hnone : ∀ c ∈ l, ¬ c.Fits size) (hleft : frameLeft h.bitmap = true) :
    ∃ f bitmap, f ∉ frames ∧ f < maxFrames ∧ 0 < f ∧ bitAt h.bitmap f = false ∧
      (∀ g, g < f → bitAt h.bitmap g = true) ∧
      (∀ g, bitAt bitmap g = (decide (g = f) || bitAt h.bitmap g)) ∧
      Yields (kmalloc h size)
        (f * 4096 + blockSize, allocated (grownHeap h l f bitmap) (frameBlock f) size) := by
  obtain ⟨f, bitmap, hf, hlt, hfpos, hfree, hused, hbits, hrequest⟩ :=
    requestSpace_eq hs hleft (last l 0)
  have hgrown := hs.grow hf hlt hfpos hbits
  have hmem : frameBlock f ∈ l ++ [frameBlock f] := List.mem_append_right _ (List.mem_cons_self ..)
  have hheader : Header (grownHeap h l f bitmap) (frameBlock f) 0 :=
    (linked_append.mp hgrown.linked).2.1
  have hne : f * 4096 ≠ 0 := by omega
  have htake : ∀ p, search size 1 (grownHeap h l f bitmap) (f * 4096) p =
      .done (f * 4096 + blockSize, allocated (grownHeap h l f bitmap) (frameBlock f) size) :=
    fun p => search_take hheader hne hsize (hgrown.bounds hmem).2 (frameBlock_fits hsize)
  refine ⟨f, bitmap, hf, hlt, hfpos, hfree, hused, hbits, ?_⟩
  cases l with
  | nil =>
    have hhead : h.head = 0 := hs.head_eq
    refine ⟨1, ?_⟩
    unfold kmalloc
    rw [if_neg (by omega), if_neg (by omega), if_pos hhead, show requestSpace h 0 = _ from hrequest]
    exact htake 0
  | cons c l =>
    have hhead : h.head = c.addr := hs.head_eq
    have hc := hs.addr_ne_zero (List.mem_cons_self (a := c) (l := l))
    have hheap : linkFrame { h with bitmap } (f * 4096) (last (c :: l) 0) =
        grownHeap h (c :: l) f bitmap := (grownHeap_of_head hhead).symm
    -- once along the list, once for the frame that is appended, once to take it
    refine ⟨2 + (c :: l).length, ?_⟩
    rw [kmalloc_eq_search hpos hsize (hhead ▸ hc), hhead]
    have hpass := search_pass (n := 2) (p := 0) hs.linked
      (fun c' hc' => hs.addr_ne_zero hc') hsize hnone
    rw [show c.addr = first (c :: l) 0 from rfl, hpass, search, if_neg (not_not.mpr rfl), hrequest]
    show (if f * 4096 = 0 then _ else search size 1 _ (f * 4096) _) = _
    rw [if_neg hne, hheap]
    exact htake _

end

end Pelikan

end SystemsProjects

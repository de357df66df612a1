import SystemsProjects.Pelikan.HeapAlloc

/-!
# Freeing

`kfree` marks the block as free and joins it with the block behind it and the one in
front of it, when these are free and touch it. Joining repairs the backward link of the
block behind (`Backed.mergeNext`), so both directions are kept.

`kfree_spec` assumes that the `prev` word of the freed block names the block in front of
it. `kfree` joins the freed block with whatever stands at that address.

The two joins are one function of the source on two pairs of blocks, and so they are here:
joining with the block in front is joining that one with the block behind it
(`Shape.mergePrev_eq`). `Joined` says what either does to the list, and `Freed.trans` puts them
one behind the other.
-/

namespace SystemsProjects

namespace Pelikan

/-- Two blocks as one. -/
def Block.join (x y : Block) : Block := { x with size := x.size + blockSize + y.size }

section

variable {h h' : Heap} {b c x y : Block} {l pre post : List Block} {frames : Finset Nat}
  {n p e next : Nat}

/-! ## Marking -/

/-- The heap with the block marked as free. -/
def marked (h : Heap) (block : Nat) : Heap := (h.set block .free 1).set block .magic heapMagicFree

theorem marked_get (hs : Shape h l frames) (hb : b ∈ l) (hc : c ∈ l) (hne : c ≠ b) (f : Field) :
    (marked h b.addr).get c.addr f = h.get c.addr f := by
  have hapart := hs.headersApart hb hc hne.symm
  have hb32 := hs.header_le hb
  have hc32 := hs.header_le hc
  unfold marked
  rw [get_set_of_apart hb32 hc32 hapart, get_set_of_apart hb32 hc32 hapart]

theorem marked_prev : (marked h n).get n .prev = h.get n .prev := by
  unfold marked
  simp (disch := decide) only [get_set_of_field_ne]

/-- A store into a header on the list leaves the payloads alone. -/
theorem payloadKept_set (hs : Shape h l frames) (hb : b ∈ l) (hc : c ∈ l) (k : Heap) (f : Field)
    (v : Nat) : PayloadKept k (k.set b.addr f v) c := by
  intro a ha ha'
  refine set_mem_of_notMem (hs.header_le hb) ?_
  by_cases hbc : b = c
  · subst hbc
    exact .inr ha
  · have hapart := hs.apart hb hc hbc
    unfold Block.stop at *
    omega

theorem PayloadKept.trans {k : Heap} (h₁ : PayloadKept h k b) (h₂ : PayloadKept k h' b) :
    PayloadKept h h' b := fun a ha ha' => (h₂ a ha ha').trans (h₁ a ha ha')

theorem payloadKept_marked (hs : Shape h l frames) (hb : b ∈ l) (hc : c ∈ l) :
    PayloadKept h (marked h b.addr) c :=
  (payloadKept_set hs hb hc h _ _).trans (payloadKept_set hs hb hc _ _ _)

theorem mem_middle (h : c ∈ pre ++ post) (seg : List Block) : c ∈ pre ++ (seg ++ post) := by
  rcases List.mem_append.mp h with h | h
  · exact List.mem_append_left _ h
  · exact List.mem_append_right _ (List.mem_append_right _ h)

/-- A member that is not the one in the middle. -/
theorem mem_others (hc : c ∈ pre ++ ([b] ++ post)) (hne : c ≠ b) : c ∈ pre ++ post := by
  simpa [hne] using hc

/-- A marked block is free, everything else is as it was. -/
theorem Shape.marked (hs : Shape h (pre ++ ([b] ++ post)) frames) :
    Shape (marked h b.addr) (pre ++ ([{ b with free := true }] ++ post)) frames := by
  have hb : b ∈ pre ++ ([b] ++ post) := List.mem_append_right _ (List.mem_cons_self ..)
  have hheader : Header h b (first post 0) := (linked_append.mp hs.linked).2.1
  have htiles := hs.tiles
  rw [List.map_append] at htiles
  refine hs.replace rfl rfl rfl ⟨⟨?_, ?_, get_set_self heapMagic_lt.2, ?_⟩, trivial⟩ ?_
    (by rw [List.map_append]; exact htiles) ?_
  · unfold Pelikan.marked
    simp (disch := decide) only [get_set_of_field_ne, hheader.size]
  · unfold Pelikan.marked
    simp (disch := decide) only [get_set_of_field_ne, get_set_self]
    rfl
  · unfold Pelikan.marked
    simp (disch := decide) only [get_set_of_field_ne, hheader.next]
    rfl
  · exact fun c hc f _ => marked_get hs hb (mem_middle hc [b]) (hs.ne_of_mem hc) f
  · intro c hc
    rw [List.mem_singleton.mp hc]
    exact hs.size_pos b hb

theorem Backed.marked (hback : Backed h 0 (pre ++ ([b] ++ post)))
    (hs : Shape h (pre ++ ([b] ++ post)) frames) :
    Backed (marked h b.addr) 0 (pre ++ ([{ b with free := true }] ++ post)) := by
  have hb : b ∈ pre ++ ([b] ++ post) := List.mem_append_right _ (List.mem_cons_self ..)
  rw [backed_append] at hback ⊢
  obtain ⟨hpre, hprev, hpost⟩ := hback
  refine ⟨hpre.congr fun c hc => ?_, marked_prev.trans hprev, hpost.congr fun c hc => ?_⟩
  · have hc := List.mem_append_left post hc
    exact marked_get hs hb (mem_middle hc [b]) (hs.ne_of_mem hc) _
  · have hc := List.mem_append_right pre hc
    exact marked_get hs hb (mem_middle hc [b]) (hs.ne_of_mem hc) _

/-! ## Joining -/

/-- What `mergeNext` writes, when the two headers do not overlap. -/
theorem mergeNext_eq (hx : Header h x y.addr) (hy : Header h y next)
    (hx32 : x.addr + blockSize ≤ 4294967296) (hy32 : y.addr + blockSize ≤ 4294967296)
    (hapart : HeadersApart x.addr y.addr) (hnext : next < 4294967296)
    (hsize : (x.join y).size < 4294967296) :
    mergeNext h x.addr y.addr =
      if next ≠ 0 then
        ((h.set x.addr .size (x.join y).size).set x.addr .next next).set next .prev x.addr
      else (h.set x.addr .size (x.join y).size).set x.addr .next next := by
  have hsum : u32 (x.size + blockSize + y.size) = (x.join y).size := Nat.mod_eq_of_lt hsize
  unfold mergeNext
  rw [hx.size, hy.size, hsum]
  simp (disch := first | assumption | decide) only [get_set_self, get_set_of_apart, hy.next]

/-- Two blocks that touch, as one. -/
theorem Block.join_stop (htouch : x.stop = y.addr) : (x.join y).stop = y.stop := by
  unfold Block.stop Block.join at *
  show x.addr + blockSize + (x.size + blockSize + y.size) = y.addr + blockSize + y.size
  omega

section Join

variable (hs : Shape h (pre ++ ([x, y] ++ post)) frames)
include hs

theorem Shape.pair_mem :
    x ∈ pre ++ ([x, y] ++ post) ∧ y ∈ pre ++ ([x, y] ++ post) ∧ x ≠ y := by
  refine ⟨List.mem_append_right _ (List.mem_cons_self ..),
    List.mem_append_right _ (List.mem_cons_of_mem _ (List.mem_cons_self ..)), ?_⟩
  have hnodup := (List.nodup_append.mp hs.nodup).2.1
  rintro rfl
  exact (List.nodup_cons.mp hnodup).1 (List.mem_cons_self ..)

/-- The block behind the two, if there is one. -/
theorem Shape.first_mem (hne : first post 0 ≠ 0) :
    ∃ z ∈ pre ++ ([x, y] ++ post), z.addr = first post 0 ∧ z ≠ x ∧ z ≠ y := by
  cases post with
  | nil => exact absurd rfl hne
  | cons z post =>
    have hnodup := (List.nodup_append.mp hs.nodup).2.1
    refine ⟨z, List.mem_append_right _ (List.mem_append_right _ (List.mem_cons_self ..)),
      rfl, ?_, ?_⟩
    · rintro rfl
      exact (List.nodup_cons.mp hnodup).1 (List.mem_cons_of_mem _ (List.mem_cons_self ..))
    · rintro rfl
      exact (List.nodup_cons.mp (List.nodup_cons.mp hnodup).2).1 (List.mem_cons_self ..)

theorem Shape.pair_headers : Header h x y.addr ∧ Header h y (first post 0) := by
  have hlinked := (linked_append.mp hs.linked).2
  exact ⟨hlinked.1, hlinked.2.1⟩

/-- The stores of a join, with and without a block behind it. -/
theorem Shape.mergeNext_eq (htouch : x.stop = y.addr) :
    mergeNext h x.addr y.addr =
      if first post 0 ≠ 0 then
        ((h.set x.addr .size (x.join y).size).set x.addr .next (first post 0)).set (first post 0)
          .prev x.addr
      else (h.set x.addr .size (x.join y).size).set x.addr .next (first post 0) := by
  obtain ⟨hx, hy, hne⟩ := hs.pair_mem
  obtain ⟨hxh, hyh⟩ := hs.pair_headers
  refine Pelikan.mergeNext_eq hxh hyh (hs.header_le hx) (hs.header_le hy)
    (hs.headersApart hx hy hne) (hyh.next ▸ get_lt ..) ?_
  have hstop := Block.join_stop htouch
  have hbounds := (hs.bounds hy).2
  unfold Block.stop at hstop hbounds
  omega

/-- The words of the other headers stay, but for `prev` of the block behind. -/
theorem Shape.mergeNext_get (htouch : x.stop = y.addr) (hc : c ∈ pre ++ ([x, y] ++ post))
    (hcx : c ≠ x) {f : Field} (hf : f ≠ .prev ∨ c.addr ≠ first post 0) :
    (mergeNext h x.addr y.addr).get c.addr f = h.get c.addr f := by
  obtain ⟨hx, -, -⟩ := hs.pair_mem
  have hx32 := hs.header_le hx
  have hc32 := hs.header_le hc
  have hapart := hs.headersApart hx hc hcx.symm
  rw [hs.mergeNext_eq htouch]
  by_cases hne : first post 0 ≠ 0
  · rw [if_pos hne]
    obtain ⟨z, hz, hzaddr, -, -⟩ := hs.first_mem hne
    rw [← hzaddr]
    by_cases hzc : z = c
    · subst hzc
      have hfp := hf.resolve_right (fun h => h hzaddr)
      rw [get_set_of_field_ne hfp.symm]
      simp (disch := assumption) only [get_set_of_apart]
    · have hzapart := hs.headersApart hz hc hzc
      have hz32 := hs.header_le hz
      simp (disch := assumption) only [get_set_of_apart]
  · rw [if_neg hne]
    simp (disch := assumption) only [get_set_of_apart]

/-- The header of the joined block. -/
theorem Shape.mergeNext_header (htouch : x.stop = y.addr) :
    Header (mergeNext h x.addr y.addr) (x.join y) (first post 0) ∧
      (mergeNext h x.addr y.addr).get x.addr .prev = h.get x.addr .prev := by
  obtain ⟨hx, hy, -⟩ := hs.pair_mem
  obtain ⟨hxh, hyh⟩ := hs.pair_headers
  have hx32 := hs.header_le hx
  have hnext : first post 0 < 4294967296 := hyh.next ▸ get_lt ..
  have hsize : (x.join y).size < 4294967296 := by
    have hstop := Block.join_stop htouch
    have hbounds := (hs.bounds hy).2
    unfold Block.stop at hstop hbounds
    omega
  -- `size` and `next` are written, the flag and the magic number stay
  have hbase : Header ((h.set x.addr .size (x.join y).size).set x.addr .next (first post 0))
      (x.join y) (first post 0) := by
    have hfree : h.get x.addr .free = (x.join y).flag := hxh.free
    have hmagic : h.get x.addr .magic = (x.join y).magic := hxh.magic
    constructor
    · exact (get_set_of_field_ne (by decide)).trans (get_set_self hsize)
    · exact ((get_set_of_field_ne (by decide)).trans (get_set_of_field_ne (by decide))).trans hfree
    · exact ((get_set_of_field_ne (by decide)).trans (get_set_of_field_ne (by decide))).trans hmagic
    · exact get_set_self hnext
  have hprev : ((h.set x.addr .size (x.join y).size).set x.addr .next (first post 0)).get x.addr
      .prev = h.get x.addr .prev :=
    (get_set_of_field_ne (by decide)).trans (get_set_of_field_ne (by decide))
  rw [hs.mergeNext_eq htouch]
  -- the last write is to the header behind, if there is one
  by_cases hne : first post 0 ≠ 0
  · rw [if_pos hne]
    obtain ⟨z, hz, hzaddr, hzx, -⟩ := hs.first_mem hne
    have hapart := hs.headersApart hz hx hzx
    have hz32 := hs.header_le hz
    rw [← hzaddr] at hbase hprev ⊢
    refine ⟨hbase.congr fun f _ => get_set_of_apart hz32 hx32 hapart, ?_⟩
    rw [get_set_of_apart hz32 hx32 hapart, hprev]
  · rw [if_neg hne]
    exact ⟨hbase, hprev⟩

/-- After a join the list has the joined block in the place of the two. -/
theorem Shape.mergeNext (htouch : x.stop = y.addr) :
    Shape (mergeNext h x.addr y.addr) (pre ++ ([x.join y] ++ post)) frames := by
  obtain ⟨hx, hy, hne⟩ := hs.pair_mem
  have hheap : (Pelikan.mergeNext h x.addr y.addr).head = h.head ∧
      (Pelikan.mergeNext h x.addr y.addr).bitmap = h.bitmap := by
    rw [hs.mergeNext_eq htouch]
    split <;> exact ⟨rfl, rfl⟩
  refine hs.replace hheap.2 hheap.1 rfl ⟨(hs.mergeNext_header htouch).1, trivial⟩ ?_ ?_ ?_
  · intro c hc f hf
    -- the other blocks keep their size, flag and `next`
    refine hs.mergeNext_get htouch (mem_middle hc _) ?_ (.inl hf)
    rintro rfl
    have hnodup : (c :: (pre ++ y :: post)).Nodup := List.nodup_middle.mp hs.nodup
    refine (List.nodup_cons.mp hnodup).1 ?_
    rcases List.mem_append.mp hc with hc | hc
    · exact List.mem_append_left _ hc
    · exact List.mem_append_right _ (List.mem_cons_of_mem _ hc)
  · -- the border between the two spans goes, the ends stay
    have htiles := hs.tiles
    have hstop := Block.join_stop htouch
    rw [List.map_append] at htiles ⊢
    have hspan : (x.join y).span = ⟨x.addr, y.stop⟩ := congrArg (Span.mk _) hstop
    have hxspan : x.span = ⟨x.addr, y.addr⟩ := congrArg (Span.mk _) htouch
    change Tiles (_ ++ x.span :: ⟨y.addr, y.stop⟩ :: _) _ at htiles
    show Tiles (_ ++ (x.join y).span :: _) _
    rw [hxspan] at htiles
    rw [hspan]
    refine (Tiles.cut_iff ?_ ?_).mp htiles
    · unfold Block.stop at htouch
      omega
    · unfold Block.stop
      omega
  · intro c hc
    rw [List.mem_singleton.mp hc]
    show 0 < x.size + 20 + y.size
    omega

/-- The block behind is told about the joined block. -/
theorem Shape.mergeNext_first (htouch : x.stop = y.addr) (hne : first post 0 ≠ 0) :
    (Pelikan.mergeNext h x.addr y.addr).get (first post 0) .prev = x.addr := by
  obtain ⟨hx, -, -⟩ := hs.pair_mem
  have hx32 := hs.header_le hx
  unfold blockSize at hx32
  rw [hs.mergeNext_eq htouch, if_pos hne]
  exact get_set_self (by omega)

/-- Only headers are written. -/
theorem Shape.payloadKept_mergeNext (htouch : x.stop = y.addr) (hc : c ∈ pre ++ ([x, y] ++ post)) :
    PayloadKept h (Pelikan.mergeNext h x.addr y.addr) c := by
  obtain ⟨hx, -, -⟩ := hs.pair_mem
  have hbase := (payloadKept_set hs hx hc h .size (x.join y).size).trans
    (payloadKept_set hs hx hc _ .next (first post 0))
  rw [hs.mergeNext_eq htouch]
  by_cases hne : first post 0 ≠ 0
  · rw [if_pos hne]
    obtain ⟨z, hz, hzaddr, -, -⟩ := hs.first_mem hne
    rw [← hzaddr] at hbase ⊢
    exact hbase.trans (payloadKept_set hs hz hc _ _ _)
  · rw [if_neg hne]
    exact hbase

/-- Nobody else stands where the block behind does. -/
theorem Shape.addr_ne_first (hc : c ∈ pre ++ ([x, y] ++ post)) (hpost : c ∉ post.head?) :
    c.addr ≠ first post 0 := by
  cases post with
  | nil => exact hs.addr_ne_zero hc
  | cons z post =>
    intro heq
    refine hpost ?_
    have hz : z ∈ pre ++ ([x, y] ++ z :: post) :=
      List.mem_append_right _ (List.mem_append_right _ (List.mem_cons_self ..))
    rw [hs.eq_of_addr hc hz heq]
    rfl

/-- The `prev` words stay, but for that of the block behind. -/
theorem Shape.mergeNext_prev (htouch : x.stop = y.addr) (hc : c ∈ pre ++ post.tail) :
    (Pelikan.mergeNext h x.addr y.addr).get c.addr .prev = h.get c.addr .prev := by
  have hnodup := List.nodup_append.mp hs.nodup
  have hpair := hnodup.2.1
  rcases List.mem_append.mp hc with hc | hc
  · have hcm : c ∈ pre ++ ([x, y] ++ post) := List.mem_append_left _ hc
    have hout := hnodup.2.2 c hc
    refine hs.mergeNext_get htouch hcm (hout x (List.mem_cons_self ..))
      (.inr (hs.addr_ne_first hcm fun hhead => ?_))
    exact absurd rfl (hout c (List.mem_append_right _ (List.mem_of_mem_head? hhead)))
  · cases post with
    | nil => exact absurd hc List.not_mem_nil
    | cons z post =>
      have hc : c ∈ post := hc
      have hcm : c ∈ pre ++ ([x, y] ++ z :: post) :=
        List.mem_append_right _ (List.mem_append_right _ (List.mem_cons_of_mem z hc))
      have hrest := List.nodup_cons.mp hpair
      have hcx : c ≠ x := by
        rintro rfl
        exact hrest.1 (List.mem_cons_of_mem _ (List.mem_cons_of_mem _ hc))
      refine hs.mergeNext_get htouch hcm hcx (.inr (hs.addr_ne_first hcm fun hhead => ?_))
      obtain rfl : z = c := Option.some.inj hhead
      exact (List.nodup_cons.mp (List.nodup_cons.mp hrest.2).2).1 hc

/-- The back links are right after a join, when they were before. -/
theorem Shape.backed_mergeNext (htouch : x.stop = y.addr)
    (hback : Backed h 0 (pre ++ ([x, y] ++ post))) :
    Backed (Pelikan.mergeNext h x.addr y.addr) 0 (pre ++ ([x.join y] ++ post)) := by
  rw [backed_append] at hback ⊢
  obtain ⟨hpre, hprev, -, hpost⟩ := hback
  refine ⟨hpre.congr fun c hc => hs.mergeNext_prev htouch (List.mem_append_left _ hc),
    (hs.mergeNext_header htouch).2.trans hprev, ?_⟩
  cases post with
  | nil => trivial
  | cons z post =>
    have hzm : z ∈ pre ++ ([x, y] ++ z :: post) :=
      List.mem_append_right _ (List.mem_append_right _ (List.mem_cons_self ..))
    exact ⟨hs.mergeNext_first htouch (hs.addr_ne_zero hzm),
      hpost.2.congr fun c hc => hs.mergeNext_prev htouch (List.mem_append_right _ hc)⟩

/-- Joining with the block in front is joining that one with the block behind it. -/
theorem Shape.mergePrev_eq : mergePrev h y.addr x.addr = Pelikan.mergeNext h x.addr y.addr := by
  obtain ⟨hx, hy, hne⟩ := hs.pair_mem
  have hx32 := hs.header_le hx
  have hy32 := hs.header_le hy
  have hapart := hs.headersApart hx hy hne
  unfold mergePrev Pelikan.mergeNext
  simp (disch := first | assumption | exact get_lt ..) only [get_set_self, get_set_of_apart]

end Join

/-! ## Looking at the neighbours -/

theorem flag_eq_one_iff : b.flag = 1 ↔ b.free = true := by
  unfold Block.flag
  split
  · next hfree => exact iff_of_true rfl hfree
  · next hfree => exact iff_of_false Nat.zero_ne_one hfree

/-- The end of a block is computed without wrapping around. -/
theorem Shape.u32_stop (hs : Shape h l frames) (hb : b ∈ l) :
    u32 (b.addr + blockSize + b.size) = b.stop := by
  have hbounds := (hs.bounds hb).2
  refine Nat.mod_eq_of_lt ?_
  unfold Block.stop at hbounds
  omega

/-- The block is joined with the one behind it, or that one is in use or does not touch. -/
theorem Shape.coalesceNext_cases (hs : Shape h (pre ++ ([b] ++ post)) frames) :
    (∃ n post', post = n :: post' ∧ n.free = true ∧ b.stop = n.addr ∧
      coalesceNext h b.addr = Pelikan.mergeNext h b.addr n.addr) ∨
    (coalesceNext h b.addr = h ∧
      ∀ n post', post = n :: post' → n.free = true → b.stop ≠ n.addr) := by
  have hb : b ∈ pre ++ ([b] ++ post) := List.mem_append_right _ (List.mem_cons_self ..)
  have hheader := hs.header
  unfold coalesceNext
  rw [hheader.next, hheader.size, hs.u32_stop hb]
  cases post with
  | nil => exact .inr ⟨if_neg fun h => h.1 rfl, fun n post' hpost => nomatch hpost⟩
  | cons n post =>
    have hn : n ∈ pre ++ ([b] ++ n :: post) :=
      List.mem_append_right _ (List.mem_append_right _ (List.mem_cons_self ..))
    have hnheader : Header h n (first post 0) := (linked_append.mp hs.linked).2.2.1
    rw [show first (n :: post) 0 = n.addr from rfl]
    simp only [hnheader.free, flag_eq_one_iff]
    by_cases hjoin : n.free = true ∧ b.stop = n.addr
    · exact .inl ⟨n, post, rfl, hjoin.1, hjoin.2, if_pos ⟨hs.addr_ne_zero hn, hjoin⟩⟩
    · refine .inr ⟨if_neg fun h => hjoin h.2, fun n' post' hpost hfree htouch => hjoin ?_⟩
      obtain ⟨rfl, rfl⟩ := List.cons.inj hpost
      exact ⟨hfree, htouch⟩

/-- The same for the block in front, when `prev` names it. -/
theorem Shape.coalescePrev_cases (hs : Shape h (pre ++ ([b] ++ post)) frames)
    (hprev : h.get b.addr .prev = last pre 0) :
    (∃ pre' p, pre = pre' ++ [p] ∧ p.free = true ∧ p.stop = b.addr ∧
      coalescePrev h b.addr = Pelikan.mergeNext h p.addr b.addr) ∨
    (coalescePrev h b.addr = h ∧
      ∀ pre' p, pre = pre' ++ [p] → p.free = true → p.stop ≠ b.addr) := by
  unfold coalescePrev
  rw [hprev]
  rcases List.eq_nil_or_concat pre with rfl | ⟨pre', p, rfl⟩
  · refine .inr ⟨if_neg fun h => h.1 rfl, fun pre' p hpre => ?_⟩
    exact absurd hpre (by simp)
  · rw [List.concat_eq_append] at hs ⊢
    rw [List.append_assoc] at hs
    have hlast : last (pre' ++ [p]) 0 = p.addr := by
      rw [last_append]
      rfl
    have hp : p ∈ pre' ++ ([p] ++ ([b] ++ post)) :=
      List.mem_append_right _ (List.mem_cons_self ..)
    have hpheader := hs.header
    rw [hlast]
    simp only [hpheader.size, hs.u32_stop hp, hpheader.free, flag_eq_one_iff]
    by_cases hjoin : p.free = true ∧ p.stop = b.addr
    · refine .inl ⟨pre', p, rfl, hjoin.1, hjoin.2, (if_pos ⟨hs.addr_ne_zero hp, hjoin⟩).trans ?_⟩
      have hs : Shape h (pre' ++ ([p, b] ++ post)) frames := hs
      exact hs.mergePrev_eq
    · refine .inr ⟨if_neg fun h => hjoin h.2, fun pre'' p' hpre hfree htouch => hjoin ?_⟩
      obtain ⟨-, hpp⟩ := List.append_inj' hpre rfl
      obtain rfl := List.singleton_inj.mp hpp
      exact ⟨hfree, htouch⟩

/-! ## The call -/

/-- A heap that is `h` with the blocks between `pre` and `post` exchanged for `b'`: no block
in use is lost, and its payload is kept. -/
structure Freed (h : Heap) (l : List Block) (frames : Finset Nat) (h' : Heap) (pre : List Block)
    (b' : Block) (post : List Block) : Prop where
  shape : Shape h' (pre ++ ([b'] ++ post)) frames
  free : b'.free = true
  backed : Backed h 0 l → Backed h' 0 (pre ++ ([b'] ++ post))
  kept : ∀ c ∈ l, c.free = false → c ∈ pre ++ post ∧ PayloadKept h h' c

/-- A block in use is not the free one in the middle. -/
theorem mem_sides (hc : c ∈ pre ++ ([b] ++ post)) (hfree : c.free = false) (hb : b.free = true) :
    c ∈ pre ++ post := by
  rcases List.mem_append.mp hc with hc | hc
  · exact List.mem_append_left _ hc
  · rcases List.mem_cons.mp hc with rfl | hc
    · rw [hb] at hfree
      cases hfree
    · exact List.mem_append_right _ hc

/-- Joining two free blocks. -/
theorem Shape.freed_mergeNext (hs : Shape h (pre ++ ([x, y] ++ post)) frames)
    (hx : x.free = true) (hy : y.free = true) (htouch : x.stop = y.addr) :
    Freed h (pre ++ ([x, y] ++ post)) frames (Pelikan.mergeNext h x.addr y.addr) pre (x.join y)
      post where
  shape := hs.mergeNext htouch
  free := hx
  backed := hs.backed_mergeNext htouch
  kept c hc hfree := by
    refine ⟨?_, hs.payloadKept_mergeNext htouch hc⟩
    have hc : c ∈ pre ++ ([x] ++ ([y] ++ post)) := hc
    exact mem_sides (mem_sides hc hfree hx) hfree hy

/-- Nothing is done to a free block. -/
theorem Shape.freed_refl (hs : Shape h (pre ++ ([b] ++ post)) frames) (hb : b.free = true) :
    Freed h (pre ++ ([b] ++ post)) frames h pre b post where
  shape := hs
  free := hb
  backed := id
  kept _ hc hfree := ⟨mem_sides hc hfree hb, fun _ _ _ => rfl⟩

theorem Freed.trans {k : Heap} {pre' post' : List Block} {b' : Block}
    (h₁ : Freed h l frames k pre b post)
    (h₂ : Freed k (pre ++ ([b] ++ post)) frames h' pre' b' post') :
    Freed h l frames h' pre' b' post' where
  shape := h₂.shape
  free := h₂.free
  backed hback := h₂.backed (h₁.backed hback)
  kept c hc hfree := by
    obtain ⟨hmem, hkept⟩ := h₁.kept c hc hfree
    obtain ⟨hmem', hkept'⟩ := h₂.kept c (mem_middle hmem [b]) hfree
    exact ⟨hmem', hkept.trans hkept'⟩

/-- The block `b` is joined with the first one of `post` when that is free and touches it:
`b₁` in front of `post₁` is what comes out. -/
def JoinsNext (b : Block) (post : List Block) (b₁ : Block) (post₁ : List Block) : Prop :=
  (∃ n, post = n :: post₁ ∧ n.free = true ∧ b.stop = n.addr ∧ b₁ = b.join n) ∨
    (post₁ = post ∧ b₁ = b ∧ ∀ n rest, post = n :: rest → n.free = true → b.stop ≠ n.addr)

/-- The same at the other side. -/
def JoinsPrev (pre : List Block) (b : Block) (pre₁ : List Block) (b₁ : Block) : Prop :=
  (∃ p, pre = pre₁ ++ [p] ∧ p.free = true ∧ p.stop = b.addr ∧ b₁ = p.join b) ∨
    (pre₁ = pre ∧ b₁ = b ∧ ∀ rest p, pre = rest ++ [p] → p.free = true → p.stop ≠ b.addr)

/-- At most one merge of two free blocks leads from the one heap to the other. -/
inductive Joined (h : Heap) (l : List Block) : Heap → List Block → Prop where
  | same : Joined h l h l
  | merge {pre post : List Block} {x y : Block} (hl : l = pre ++ ([x, y] ++ post))
      (hx : x.free = true) (hy : y.free = true) (htouch : x.stop = y.addr) :
      Joined h l (mergeNext h x.addr y.addr) (pre ++ ([x.join y] ++ post))

/-- The first join: with the block behind, if it is free and touches. -/
theorem coalesceNext_spec {a : Nat} (hs : Shape h (pre ++ ([b] ++ post)) frames)
    (hb : b.free = true) (haddr : b.addr = a) :
    ∃ b' post', b'.addr = a ∧ (coalesceNext h a).get a .prev = h.get a .prev ∧
      JoinsNext b post b' post' ∧
      Joined h (pre ++ ([b] ++ post)) (coalesceNext h a) (pre ++ ([b'] ++ post')) ∧
      Freed h (pre ++ ([b] ++ post)) frames (coalesceNext h a) pre b' post' := by
  subst haddr
  rcases hs.coalesceNext_cases with ⟨n, post', rfl, hn, htouch, heq⟩ | ⟨heq, hno⟩
  · have hs' : Shape h (pre ++ ([b, n] ++ post')) frames := hs
    rw [heq]
    refine ⟨b.join n, post', rfl, (hs'.mergeNext_header htouch).2, ?_, ?_,
      hs'.freed_mergeNext hb hn htouch⟩
    · exact .inl ⟨n, rfl, hn, htouch, rfl⟩
    · exact .merge rfl hb hn htouch
  · rw [heq]
    exact ⟨b, post, rfl, rfl, .inr ⟨rfl, rfl, hno⟩, .same, hs.freed_refl hb⟩

/-- The second join: with the block that `prev` points to, if it is free and touches. -/
theorem coalescePrev_spec {a : Nat} (hs : Shape h (pre ++ ([b] ++ post)) frames)
    (hb : b.free = true) (haddr : b.addr = a) (hprev : h.get a .prev = last pre 0) :
    ∃ pre' b', JoinsPrev pre b pre' b' ∧
      Joined h (pre ++ ([b] ++ post)) (coalescePrev h a) (pre' ++ ([b'] ++ post)) ∧
      Freed h (pre ++ ([b] ++ post)) frames (coalescePrev h a) pre' b' post := by
  subst haddr
  rcases hs.coalescePrev_cases hprev with ⟨pre', p, rfl, hp, htouch, heq⟩ | ⟨heq, hno⟩
  · have hassoc : pre' ++ [p] ++ ([b] ++ post) = pre' ++ ([p, b] ++ post) := by
      rw [List.append_assoc]
      rfl
    rw [hassoc] at hs ⊢
    rw [heq]
    refine ⟨pre', p.join b, ?_, ?_, hs.freed_mergeNext hp hb htouch⟩
    · exact .inl ⟨p, rfl, hp, htouch, rfl⟩
    · exact .merge rfl hp hb htouch
  · rw [heq]
    exact ⟨pre, b, .inr ⟨rfl, rfl, hno⟩, .same, hs.freed_refl hb⟩

theorem mergeNext_bitmap (h : Heap) (block next : Nat) :
    (Pelikan.mergeNext h block next).bitmap = h.bitmap := by
  unfold Pelikan.mergeNext
  dsimp only
  split <;> rfl

theorem mergePrev_bitmap (h : Heap) (block prev : Nat) :
    (Pelikan.mergePrev h block prev).bitmap = h.bitmap := by
  unfold Pelikan.mergePrev
  dsimp only
  split <;> rfl

/-- The heap gives no frame back. -/
@[simp] theorem kfree_bitmap (h : Heap) (p : Nat) : (Pelikan.kfree h p).bitmap = h.bitmap := by
  have hnext : ∀ k block, (Pelikan.coalesceNext k block).bitmap = k.bitmap := by
    intro k block
    unfold Pelikan.coalesceNext
    dsimp only
    split
    · exact mergeNext_bitmap ..
    · rfl
  have hprev : ∀ k block, (Pelikan.coalescePrev k block).bitmap = k.bitmap := by
    intro k block
    unfold Pelikan.coalescePrev
    dsimp only
    split
    · exact mergePrev_bitmap ..
    · rfl
  by_cases hp : p = 0
  · exact congrArg Heap.bitmap (if_pos hp)
  · have hcall : ∀ block, u32 (p + 4294967296 - blockSize) = block →
        Pelikan.kfree h p =
          Pelikan.coalescePrev (Pelikan.coalesceNext (Pelikan.marked h block) block) block := by
      rintro block rfl
      exact if_neg hp
    obtain ⟨block, hblock⟩ : ∃ block, u32 (p + 4294967296 - blockSize) = block := ⟨_, rfl⟩
    rw [hcall block hblock, hprev, hnext]
    rfl

/-- The call as its parts. -/
theorem kfree_eq (hs : Shape h l frames) (hb : b ∈ l) :
    kfree h (b.addr + blockSize) = coalescePrev (coalesceNext (marked h b.addr) b.addr) b.addr := by
  have hle := hs.header_le hb
  have haddr : u32 (b.addr + blockSize + 4294967296 - blockSize) = b.addr := by
    unfold u32 blockSize at *
    omega
  have hne : b.addr + blockSize ≠ 0 := by
    unfold blockSize
    omega
  have hcall : ∀ ptr block, ptr ≠ 0 → u32 (ptr + 4294967296 - blockSize) = block →
      kfree h ptr = coalescePrev (coalesceNext (marked h block) block) block := by
    rintro ptr block hptr rfl
    exact if_neg hptr
  exact hcall _ _ hne haddr

/-- What a call of `kfree` does to a list with the block `b` on it: it marks the block, joins it
with the block behind, and joins the result with the block in front. -/
structure FreedBlock (h : Heap) (frames : Finset Nat) (pre : List Block) (b : Block)
    (post pre' : List Block) (b' : Block) (post' : List Block) : Prop where
  next : ∃ b₁, JoinsNext { b with free := true } post b₁ post' ∧ JoinsPrev pre b₁ pre' b' ∧
    ∃ k, Joined (marked h b.addr) (pre ++ ([{ b with free := true }] ++ post)) k
        (pre ++ ([b₁] ++ post')) ∧ Shape k (pre ++ ([b₁] ++ post')) frames ∧
      Joined k (pre ++ ([b₁] ++ post')) (kfree h (b.addr + blockSize)) (pre' ++ ([b'] ++ post'))
  shape : Shape (kfree h (b.addr + blockSize)) (pre' ++ ([b'] ++ post')) frames
  free : b'.free = true
  backed : Backed h 0 (pre ++ ([b] ++ post)) →
    Backed (kfree h (b.addr + blockSize)) 0 (pre' ++ ([b'] ++ post'))
  kept : ∀ c ∈ pre ++ post, c.free = false →
    c ∈ pre' ++ post' ∧ PayloadKept h (kfree h (b.addr + blockSize)) c

/-- `kfree` of a block whose `prev` word names the block in front of it. -/
theorem kfree_freedBlock (hs : Shape h (pre ++ ([b] ++ post)) frames)
    (hprev : h.get b.addr .prev = last pre 0) :
    ∃ pre' b' post', FreedBlock h frames pre b post pre' b' post' := by
  have hb : b ∈ pre ++ ([b] ++ post) := List.mem_append_right _ (List.mem_cons_self ..)
  have hcall := kfree_eq hs hb
  obtain ⟨b₁, post₁, haddr, hkeep, hjoinNext, hjoined, hnext⟩ :=
    coalesceNext_spec hs.marked rfl (a := b.addr) rfl
  -- looking behind leaves `prev` of the block alone
  have hprev₁ : (coalesceNext (marked h b.addr) b.addr).get b.addr .prev = last pre 0 :=
    hkeep.trans (marked_prev.trans hprev)
  obtain ⟨pre', b', hjoinPrev, hjoined', hlast⟩ :=
    coalescePrev_spec hnext.shape hnext.free haddr hprev₁
  have hboth := hnext.trans hlast
  rw [← hcall] at hboth hjoined'
  refine ⟨pre', b', post₁, ⟨b₁, hjoinNext, hjoinPrev, _, hjoined, hnext.shape, hjoined'⟩,
    hboth.shape, hboth.free, fun hback => hboth.backed (hback.marked hs), ?_⟩
  intro c hc hfree
  obtain ⟨hmem, hkept⟩ := hboth.kept c (mem_middle hc _) hfree
  exact ⟨hmem, (payloadKept_marked hs hb (mem_middle hc _)).trans hkept⟩

/-- What is left of it for a run: the shape, and the blocks in use. -/
theorem kfree_spec (hs : Shape h (pre ++ ([b] ++ post)) frames)
    (hprev : h.get b.addr .prev = last pre 0) :
    ∃ pre' b' post', Shape (kfree h (b.addr + blockSize)) (pre' ++ ([b'] ++ post')) frames ∧
      b'.free = true ∧
      (Backed h 0 (pre ++ ([b] ++ post)) →
        Backed (kfree h (b.addr + blockSize)) 0 (pre' ++ ([b'] ++ post'))) ∧
      ∀ c ∈ pre ++ post, c.free = false →
        c ∈ pre' ++ post' ∧ PayloadKept h (kfree h (b.addr + blockSize)) c := by
  obtain ⟨pre', b', post', hfreed⟩ := kfree_freedBlock hs hprev
  exact ⟨pre', b', post', hfreed.shape, hfreed.free, hfreed.backed, hfreed.kept⟩

end

end Pelikan

end SystemsProjects

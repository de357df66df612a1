import SystemsProjects.Pelikan.Gaps

/-!
# The heap of the tasks

The scheduler asks the heap for one size only, that of a `task_t`. With their headers these
blocks are 64 bytes long, so every header that was ever written stands on a multiple of 64, and
no payload of a block in use covers such an address.

`kmalloc` leaves stale `prev` words behind, and `kfree` follows them. Here that does no harm: a
stale word leads to a block in front of the freed one, or into a free one, and in the second case
only the words there change (`Cells.mergePrev_stale`).

- `Cells`: the blocks, and where their `prev` words may lead.
- `Cells.kfree`: freeing keeps this, and takes back one block.

The two cases of a `prev` word go through all of the lemmas: it names the block in front, or it
is stale. For the first case `HeapFree` has the lemmas. In the second the words at the stale
address are read by `kfree` as if they were a header, and what must be shown is that they can
only send it to where no block in use is.
-/

namespace SystemsProjects

namespace Pelikan

/-- `sizeof(task_t)` -/
def taskSize : Nat := 44

/-! ## Cells -/

/-- On a multiple of 64, and of one cell only when it is in use. -/
structure Block.OnGrid (b : Block) : Prop where
  addr : b.addr % 64 = 0
  size : b.size % 64 = taskSize
  used : b.free = false → b.size = taskSize

/-- The word `size` at `v` belongs to a block, or it does not lead over a gap. -/
def SizeOk (h : Heap) (l : List Block) (v : Nat) : Prop :=
  (∃ b ∈ l, b.addr = v) ∨ ∀ a, v < a → a < v + blockSize + h.get v .size → Smooth l a

/-- Where the `prev` word `v` of a block may lead when the block in front of it ends at `e`:
nowhere, or to a cell of the heap that has no gap behind it up to `e`. -/
def Leads (h : Heap) (l : List Block) (frames : Finset Nat) (e v : Nat) : Prop :=
  v = 0 ∨ v % 64 = 0 ∧ v / 4096 ∈ frames ∧ v < e ∧ (∀ a, v < a → a < e → Smooth l a) ∧
    SizeOk h l v

/-- `P` holds of each `prev` word and the end of the block in front, `e` for the first one. -/
def Prevs (P : Nat → Nat → Prop) (h : Heap) : Nat → List Block → Prop
  | _, [] => True
  | e, b :: l => P e (h.get b.addr .prev) ∧ Prevs P h b.stop l

/-- The heap of the tasks. -/
structure Cells (h : Heap) (l : List Block) (frames : Finset Nat) : Prop where
  shape : Shape h l frames
  grid : ∀ b ∈ l, b.OnGrid
  prevs : Prevs (Leads h l frames) h 0 l

/-- The block in front of the pointer is in use. -/
def InUse (l : List Block) (p : Nat) : Prop := ∃ b ∈ l, b.free = false ∧ p = b.addr + blockSize

/-- The payloads of the blocks in use are as before. -/
def Kept (h : Heap) (l : List Block) (h' : Heap) : Prop :=
  ∀ p, InUse l p → ∀ i, i < taskSize → h'.mem (p + i) = h.mem (p + i)

section

variable {h h' h'' : Heap} {b c x y z : Block} {l l' pre seg seg' post : List Block}
  {frames frames' : Finset Nat} {P Q : Nat → Nat → Prop} {a e f p q v size : Nat} {bitmap : Bitmap}

/-- The `prev` words of two lists, with the end of the first in front of the second. -/
theorem prevs_append {l₁ l₂ : List Block} :
    Prevs P h e (l₁ ++ l₂) ↔ Prevs P h e l₁ ∧ Prevs P h (stopOf l₁ e) l₂ := by
  induction l₁ generalizing e with
  | nil => exact ⟨fun h => ⟨trivial, h⟩, And.right⟩
  | cons b l₁ ih =>
    show P e _ ∧ Prevs P h b.stop (l₁ ++ l₂) ↔ _
    rw [ih, ← and_assoc]
    rfl

/-- The property of the `prev` words may be weakened. -/
theorem Prevs.imp (hl : Prevs P h e l) (himp : ∀ e v, P e v → Q e v)
    (hget : ∀ b ∈ l, h'.get b.addr .prev = h.get b.addr .prev) : Prevs Q h' e l := by
  induction l generalizing e with
  | nil => trivial
  | cons b l ih =>
    refine ⟨?_, ih hl.2 fun c hc => hget c (List.mem_cons_of_mem b hc)⟩
    rw [hget b (List.mem_cons_self ..)]
    exact himp _ _ hl.1

/-- A `prev` word may lead where it did, when no gap opens and the size it finds there is still
right. -/
theorem Leads.mono (hv : Leads h l frames e v) (hframes : frames ⊆ frames')
    (hsmooth : ∀ a, Smooth l a → Smooth l' a)
    (hsize : v % 64 = 0 → v / 4096 ∈ frames → SizeOk h l v → SizeOk h' l' v) :
    Leads h' l' frames' e v := by
  rcases hv with rfl | ⟨hgrid, hin, hlt, hgap, hok⟩
  · exact .inl rfl
  · exact .inr ⟨hgrid, hframes hin, hlt,
      fun a ha ha' => hsmooth a (hgap a ha ha'), hsize hgrid hin hok⟩

/-- A size word that was right stays right when no gap opens. -/
theorem SizeOk.mono (hok : SizeOk h l v) (hsmooth : ∀ a, Smooth l a → Smooth l' a)
    (hstart : ∀ b ∈ l, b.addr = v → SizeOk h' l' v)
    (hget : (∀ b ∈ l, b.addr ≠ v) → SizeOk h' l' v ∨ h'.get v .size = h.get v .size) :
    SizeOk h' l' v := by
  rcases hok with ⟨b, hb, haddr⟩ | hgap
  · exact hstart b hb haddr
  · by_cases hnone : ∀ b ∈ l, b.addr ≠ v
    · rcases hget hnone with hok | heq
      · exact hok
      · refine .inr fun a ha ha' => hsmooth a (hgap a ha ?_)
        rwa [heq] at ha'
    · simp only [not_forall, not_not] at hnone
      obtain ⟨b, hb, haddr⟩ := hnone
      exact hstart b hb haddr

/-- A cell of the heap is below 128 MiB. -/
theorem Shape.cell_le (hs : Shape h l frames) (hv : v / 4096 ∈ frames) :
    v + blockSize ≤ 4294967296 := by
  have hlt := (hs.used _ hv).2.1
  unfold maxFrames at hlt
  unfold blockSize
  omega

theorem Block.OnGrid.apart (hb : b.OnGrid) (hv : v % 64 = 0) (hne : b.addr ≠ v) :
    HeadersApart b.addr v := by
  have haddr := hb.addr
  unfold HeadersApart blockSize
  omega

theorem Shape.block_frame (hs : Shape h l frames) (hb : b ∈ l) : b.addr / 4096 ∈ frames := by
  have hpos := b.stop_pos
  refine hs.tiles.covered (a := b.addr) hb ⟨Nat.le_refl _, ?_⟩
  show b.addr < b.stop
  omega

theorem Kept.refl (h : Heap) (l : List Block) : Kept h l h := fun _ _ _ _ => rfl

theorem Kept.trans (h₁ : Kept h l h') (h₂ : Kept h' l' h'') (hin : ∀ p, InUse l p → InUse l' p) :
    Kept h l h'' := fun p hp i hi => (h₂ p (hin p hp) i hi).trans (h₁ p hp i hi)

theorem Cells.kept (hc : Cells h l frames)
    (hkept : ∀ c ∈ l, c.free = false → PayloadKept h h' c) : Kept h l h' := by
  rintro _ ⟨c, hcm, hfree, rfl⟩ i hi
  have hsize := (hc.grid c hcm).used hfree
  refine hkept c hcm hfree _ (Nat.le_add_right ..) ?_
  unfold Block.stop
  omega

/-! ## Marking a block as free -/

theorem Cells.marked (hc : Cells h (pre ++ ([b] ++ post)) frames) :
    Cells (marked h b.addr) (pre ++ ([{ b with free := true }] ++ post)) frames := by
  obtain ⟨hs, hgrid, hprevs⟩ := hc
  have hb : b ∈ pre ++ ([b] ++ post) := List.mem_append_right _ (List.mem_cons_self ..)
  have hsmooth : ∀ a, Smooth (pre ++ ([b] ++ post)) a →
      Smooth (pre ++ ([{ b with free := true }] ++ post)) a := fun a ha =>
    ha.replace nofun nofun rfl rfl id
  -- what a `prev` leads to is the same, with one flag changed
  have himp : ∀ e v, Leads h (pre ++ ([b] ++ post)) frames e v →
      Leads (Pelikan.marked h b.addr) (pre ++ ([{ b with free := true }] ++ post)) frames e v := by
    intro e v hv
    refine hv.mono (Finset.Subset.refl _) hsmooth fun hv64 hin hok => hok.mono hsmooth ?_ ?_
    · intro c hcm haddr
      by_cases hcb : c = b
      · exact .inl ⟨_, List.mem_append_right _ (List.mem_cons_self ..), by rw [← haddr, hcb]⟩
      · exact .inl ⟨c, mem_middle (mem_others hcm hcb) _, haddr⟩
    · intro hnone
      right
      have hapart := (hgrid b hb).apart hv64 (hnone b hb)
      have hle := hs.cell_le hin
      unfold Pelikan.marked
      simp (disch := first | assumption | exact hs.header_le hb) only [get_set_of_apart]
  have hother : ∀ c ∈ pre ++ post, (Pelikan.marked h b.addr).get c.addr .prev =
      h.get c.addr .prev := fun c hc => marked_get hs hb (mem_middle hc [b]) (hs.ne_of_mem hc) _
  refine ⟨hs.marked, fun c hcm => ?_, ?_⟩
  · rcases List.mem_append.mp hcm with hcm | hcm
    · exact hgrid c (List.mem_append_left _ hcm)
    · rcases List.mem_cons.mp hcm with rfl | hcm
      · exact ⟨(hgrid b hb).addr, (hgrid b hb).size, nofun⟩
      · exact hgrid c (List.mem_append_right _ (List.mem_append_right _ hcm))
  · rw [prevs_append] at hprevs ⊢
    obtain ⟨hpre, hfirst, hpost⟩ := hprevs
    refine ⟨hpre.imp himp fun c hc => hother c (List.mem_append_left _ hc), ?_,
      hpost.imp himp fun c hc => hother c (List.mem_append_right _ hc)⟩
    show Leads _ _ _ _ ((Pelikan.marked h b.addr).get b.addr .prev)
    rw [marked_prev]
    exact himp _ _ hfirst

/-! ## Joining two blocks -/

/-- Inside a block there is no gap. -/
theorem smooth_of_inside (hb : b ∈ l) (ha : b.addr < a) (ha' : a < b.stop) : Smooth l a := by
  induction l with
  | nil => exact absurd hb List.not_mem_nil
  | cons c l ih =>
    rcases List.mem_cons.mp hb with rfl | hb
    · exact .inl ⟨ha, ha'⟩
    · exact .inr (.inr (ih hb))

/-- A join of two blocks that touch opens no gap. -/
theorem Smooth.join (ha : Smooth (pre ++ ([x, y] ++ post)) a) (htouch : x.stop = y.addr) :
    Smooth (pre ++ ([x.join y] ++ post)) a := by
  have hstop := Block.join_stop htouch
  refine ha.replace nofun nofun rfl hstop fun hin => ?_
  have hx := x.stop_pos
  have hy := y.stop_pos
  have haddr : (x.join y).addr = x.addr := rfl
  refine smooth_of_inside (List.mem_cons_self ..) ?_ ?_
  · rcases hin with ⟨hlt, -⟩ | ⟨hlt, -⟩ | ⟨hlt, -⟩ | ⟨hlt, -⟩ | hin
    · exact hlt
    · omega
    · omega
    · omega
    · exact absurd hin id
  · rcases hin with ⟨-, hlt⟩ | ⟨-, hlt⟩ | ⟨-, hlt⟩ | ⟨hlt, hzero⟩ | hin
    · omega
    · have hlt : y.addr = a := hlt
      omega
    · omega
    · have hzero : 0 = a := hzero
      omega
    · exact absurd hin id

/-- The header of the second block keeps saying where that block ended. -/
theorem Cells.stale_mergeNext (hc : Cells h (pre ++ ([x, y] ++ post)) frames)
    (htouch : x.stop = y.addr) :
    SizeOk (mergeNext h x.addr y.addr) (pre ++ ([x.join y] ++ post)) y.addr := by
  have hs := hc.shape
  obtain ⟨hxm, hym, hne⟩ := hs.pair_mem
  have hxpos := x.stop_pos
  have hfirst : y.addr ≠ first post 0 := by
    refine hs.addr_ne_first hym fun hhead => ?_
    have hnodup := (List.nodup_append.mp hs.nodup).2.1
    have hout := (List.nodup_cons.mp (List.nodup_cons.mp hnodup).2).1
    exact hout (List.mem_of_mem_head? hhead)
  right
  rw [hs.mergeNext_get htouch hym hne.symm (.inr hfirst), hs.pair_headers.2.size]
  intro a ha ha'
  refine smooth_of_inside (b := x.join y) (List.mem_append_right _ (List.mem_cons_self ..)) ?_ ?_
  · show x.addr < a
    omega
  · rwa [Block.join_stop htouch]

/-- Where a `prev` word leads to behind a join. -/
theorem Cells.leads_mergeNext (hc : Cells h (pre ++ ([x, y] ++ post)) frames)
    (htouch : x.stop = y.addr) (hv : Leads h (pre ++ ([x, y] ++ post)) frames e v) :
    Leads (mergeNext h x.addr y.addr) (pre ++ ([x.join y] ++ post)) frames e v := by
  have hs := hc.shape
  obtain ⟨hxm, -, -⟩ := hs.pair_mem
  have hsmooth : ∀ a, Smooth (pre ++ ([x, y] ++ post)) a →
      Smooth (pre ++ ([x.join y] ++ post)) a := fun a ha => ha.join htouch
  refine hv.mono (Finset.Subset.refl _) hsmooth fun hv64 hin hok => hok.mono hsmooth ?_ ?_
  · rintro c hcm rfl
    -- the name of the second block is stale now, the others stay
    by_cases hcx : c = x
    · exact .inl ⟨x.join y, List.mem_append_right _ (List.mem_cons_self ..), by rw [hcx]; rfl⟩
    · by_cases hcy : c = y
      · rw [hcy]
        exact hc.stale_mergeNext htouch
      · have hcm : c ∈ pre ++ ([x] ++ ([y] ++ post)) := hcm
        exact .inl ⟨c, mem_middle (mem_others (mem_others hcm hcx) hcy) _, rfl⟩
  · intro hnone
    right
    -- a cell that is no header keeps its words
    have hle := hs.cell_le hin
    have hxapart := (hc.grid x hxm).apart hv64 (hnone x hxm)
    have hx32 := hs.header_le hxm
    rw [hs.mergeNext_eq htouch]
    by_cases hfirst : first post 0 ≠ 0
    · rw [if_pos hfirst]
      obtain ⟨z, hz, hzaddr, -, -⟩ := hs.first_mem hfirst
      have hzapart := (hc.grid z hz).apart hv64 (hnone z hz)
      have hz32 := hs.header_le hz
      rw [← hzaddr]
      simp (disch := assumption) only [get_set_of_apart]
    · rw [if_neg hfirst]
      simp (disch := assumption) only [get_set_of_apart]

/-- A join with the block behind keeps the grid. -/
theorem Cells.mergeNext (hc : Cells h (pre ++ ([x, y] ++ post)) frames) (hx : x.free = true)
    (htouch : x.stop = y.addr) :
    Cells (mergeNext h x.addr y.addr) (pre ++ ([x.join y] ++ post)) frames := by
  obtain ⟨hs, hgrid, hprevs⟩ := id hc
  obtain ⟨hxm, hym, -⟩ := hs.pair_mem
  have hxaddr := (hgrid x hxm).addr
  refine ⟨hs.mergeNext htouch, fun c hcm => ?_, ?_⟩
  · rcases List.mem_append.mp hcm with hcm | hcm
    · exact hgrid c (List.mem_append_left _ hcm)
    · rcases List.mem_cons.mp hcm with rfl | hcm
      · have hxs := (hgrid x hxm).size
        have hys := (hgrid y hym).size
        refine ⟨hxaddr, ?_, fun hfree => absurd (hx.symm.trans hfree) nofun⟩
        show (x.size + 20 + y.size) % 64 = 44
        unfold taskSize at hxs hys
        omega
      · exact hgrid c (List.mem_append_right _ (List.mem_append_right _ hcm))
  · have himp := fun e v (hv : Leads h _ frames e v) => hc.leads_mergeNext htouch hv
    rw [prevs_append] at hprevs ⊢
    obtain ⟨hpre, hfirst, -, hpost⟩ := hprevs
    refine ⟨hpre.imp himp fun c hc => hs.mergeNext_prev htouch (List.mem_append_left _ hc), ?_, ?_⟩
    · show Leads _ _ _ _ ((Pelikan.mergeNext h x.addr y.addr).get x.addr .prev)
      rw [(hs.mergeNext_header htouch).2]
      exact himp _ _ hfirst
    · cases post with
      | nil => trivial
      | cons z post =>
        have hzm : z ∈ pre ++ ([x, y] ++ z :: post) :=
          List.mem_append_right _ (List.mem_append_right _ (List.mem_cons_self ..))
        have hprev : (Pelikan.mergeNext h x.addr y.addr).get z.addr .prev = x.addr :=
          hs.mergeNext_first htouch (hs.addr_ne_zero hzm)
        have hjoin : x.join y ∈ pre ++ ([x.join y] ++ z :: post) :=
          List.mem_append_right _ (List.mem_cons_self ..)
        refine ⟨?_, hpost.2.imp himp
          fun c hc => hs.mergeNext_prev htouch (List.mem_append_right _ hc)⟩
        rw [hprev]
        have hlt : x.addr < (x.join y).stop := by
          have hpos : x.addr + 20 ≤ (x.join y).stop := (x.join y).stop_pos.1
          omega
        -- the block behind is told about the joined block
        exact .inr ⟨hxaddr, hs.block_frame hxm, hlt, fun a ha ha' => smooth_of_inside hjoin ha ha',
          .inl ⟨_, hjoin, rfl⟩⟩

/-! ## Following a stale word -/

/-- The word `prev` of `b` leads to `v`, where no block stands, and the words at `v` say that
they end at `b`. -/
structure Stale (h : Heap) (pre : List Block) (b : Block) (post : List Block) (frames : Finset Nat)
    (v : Nat) : Prop where
  grid : v % 64 = 0
  mem : v / 4096 ∈ frames
  none : ∀ c ∈ pre ++ ([b] ++ post), c.addr ≠ v
  lt : v < b.addr
  gap : ∀ a, v < a → a < b.addr → Smooth (pre ++ ([b] ++ post)) a
  size : v + blockSize + h.get v .size = b.addr
  touch : pre ≠ [] ∧ stopOf pre 0 = b.addr

/-- The heap with the words at `v` changed, and the block behind told about `v`. -/
def staleMerge (h : Heap) (b : Block) (next v : Nat) : Heap :=
  let k := (h.set v .size (b.stop - v - blockSize)).set v .next next
  if next ≠ 0 then k.set next .prev v else k

section Stale

variable (hc : Cells h (pre ++ ([b] ++ post)) frames) (hstale : Stale h pre b post frames v)
include hc hstale

/-- The words at a stale `prev` lie apart from every header of the list. -/
theorem Cells.stale_apart (hcm : c ∈ pre ++ ([b] ++ post)) : HeadersApart v c.addr :=
  ((hc.grid c hcm).apart hstale.grid (hstale.none c hcm)).symm

/-- A join through a stale `prev` changes the words it points to, which no block has. -/
theorem Cells.mergePrev_eq : mergePrev h b.addr v = staleMerge h b (first post 0) v := by
  have hs := hc.shape
  have hb : b ∈ pre ++ ([b] ++ post) := List.mem_append_right _ (List.mem_cons_self ..)
  have hapart := hc.stale_apart hstale hb
  have hle := hs.cell_le hstale.mem
  have hb32 := hs.header_le hb
  have hsize : u32 (h.get v .size + blockSize + b.size) = b.stop - v - blockSize := by
    have hbounds := (hs.bounds hb).2
    have hsum := hstale.size
    have hlt := hstale.lt
    unfold Block.stop blockSize at *
    unfold u32
    omega
  unfold mergePrev staleMerge
  simp (disch := assumption) only [get_set_of_apart, hs.header.size, hs.header.next, hsize]

/-- The block behind is on the list. -/
theorem Cells.first_mem (hne : first post 0 ≠ 0) :
    ∃ z ∈ pre ++ ([b] ++ post), z.addr = first post 0 ∧ z ≠ b := by
  have hs := hc.shape
  cases post with
  | nil => exact absurd rfl hne
  | cons z post =>
    refine ⟨z, List.mem_append_right _ (List.mem_append_right _ (List.mem_cons_self ..)), rfl, ?_⟩
    exact hs.ne_of_mem (List.mem_append_right _ (List.mem_cons_self ..))

/-- Where no block stands, the words stay too, but at `v`. -/
theorem Cells.staleMerge_get (hcm : c ∈ pre ++ ([b] ++ post)) {g : Field}
    (hg : g ≠ .prev ∨ c.addr ≠ first post 0) :
    (staleMerge h b (first post 0) v).get c.addr g = h.get c.addr g := by
  have hs := hc.shape
  have hle := hs.cell_le hstale.mem
  have hapart := hc.stale_apart hstale hcm
  have hc32 := hs.header_le hcm
  unfold staleMerge
  by_cases hne : first post 0 ≠ 0
  · rw [if_pos hne]
    obtain ⟨z, hz, hzaddr, -⟩ := hc.first_mem hstale hne
    rw [← hzaddr]
    by_cases hzc : z = c
    · subst hzc
      have hgp := hg.resolve_right (fun hne => hne hzaddr)
      rw [get_set_of_field_ne hgp.symm]
      simp (disch := assumption) only [get_set_of_apart]
    · have hzapart := hs.headersApart hz hcm hzc
      have hz32 := hs.header_le hz
      simp (disch := assumption) only [get_set_of_apart]
  · rw [if_neg hne]
    simp (disch := assumption) only [get_set_of_apart]

omit hc in
/-- From `v` on there is no gap up to the end of the block. -/
theorem Cells.stale_smooth (ha : v < a) (ha' : a < b.stop) : Smooth (pre ++ ([b] ++ post)) a := by
  have hb : b ∈ pre ++ ([b] ++ post) := List.mem_append_right _ (List.mem_cons_self ..)
  rcases Nat.lt_trichotomy a b.addr with hlt | rfl | hgt
  · exact hstale.gap a ha hlt
  · rw [smooth_append]
    exact .inr (.inl ⟨hstale.touch.1, hstale.touch.2, rfl⟩)
  · exact smooth_of_inside hb hgt ha'

/-- The words at `v` now lead to the end of the block. -/
theorem Cells.staleMerge_sizeOk :
    SizeOk (staleMerge h b (first post 0) v) (pre ++ ([b] ++ post)) v := by
  have hs := hc.shape
  have hb : b ∈ pre ++ ([b] ++ post) := List.mem_append_right _ (List.mem_cons_self ..)
  have hle := hs.cell_le hstale.mem
  have hbounds := (hs.bounds hb).2
  have hsize : (staleMerge h b (first post 0) v).get v .size = b.stop - v - blockSize := by
    have hself : ((h.set v .size (b.stop - v - blockSize)).set v .next (first post 0)).get v .size =
        b.stop - v - blockSize :=
      (get_set_of_field_ne (by decide)).trans (get_set_self (by omega))
    unfold staleMerge
    by_cases hne : first post 0 ≠ 0
    · rw [if_pos hne]
      obtain ⟨z, hz, hzaddr, -⟩ := hc.first_mem hstale hne
      have hapart := (hc.stale_apart hstale hz).symm
      have hz32 := hs.header_le hz
      rw [← hzaddr] at hself ⊢
      rw [get_set_of_apart hz32 hle hapart, hself]
    · rw [if_neg hne, hself]
  right
  rw [hsize]
  intro a ha ha'
  have hsum := hstale.size
  have hpos := b.stop_pos
  exact Cells.stale_smooth hstale ha (by omega)

theorem Cells.leads_staleMerge {v' : Nat} (hv : Leads h (pre ++ ([b] ++ post)) frames e v') :
    Leads (staleMerge h b (first post 0) v) (pre ++ ([b] ++ post)) frames e v' := by
  have hs := hc.shape
  refine hv.mono (Finset.Subset.refl _) (fun _ => id) fun hv64 hin hok =>
    hok.mono (fun _ => id) ?_ ?_
  · exact fun c hcm haddr => .inl ⟨c, hcm, haddr⟩
  · intro hnone
    by_cases heq : v' = v
    · rw [heq]
      exact .inl (hc.staleMerge_sizeOk hstale)
    · right
      have hle := hs.cell_le hstale.mem
      have hle' := hs.cell_le hin
      have hapart : HeadersApart v v' := by
        have hgrid := hstale.grid
        unfold HeadersApart blockSize
        omega
      unfold staleMerge
      by_cases hne : first post 0 ≠ 0
      · rw [if_pos hne]
        obtain ⟨z, hz, hzaddr, -⟩ := hc.first_mem hstale hne
        have hzapart := (hc.grid z hz).apart hv64 (hnone z hz)
        have hz32 := hs.header_le hz
        rw [← hzaddr]
        simp (disch := assumption) only [get_set_of_apart]
      · rw [if_neg hne]
        simp (disch := assumption) only [get_set_of_apart]

/-- No payload in use covers a multiple of 64. -/
theorem Cells.kept_staleMerge :
    Kept h (pre ++ ([b] ++ post)) (staleMerge h b (first post 0) v) := by
  have hs := hc.shape
  refine hc.kept fun c hcm hfree a ha ha' => ?_
  have hgrid := hc.grid c hcm
  have hsize := hgrid.used hfree
  have haddr := hgrid.addr
  have hv := hstale.grid
  have hle := hs.cell_le hstale.mem
  have hout : a < v ∨ v + blockSize ≤ a := by
    unfold Block.stop taskSize blockSize at *
    omega
  unfold staleMerge
  by_cases hne : first post 0 ≠ 0
  · rw [if_pos hne]
    obtain ⟨z, hz, hzaddr, -⟩ := hc.first_mem hstale hne
    rw [← hzaddr, payloadKept_set hs hz hcm _ .prev v a ha ha', set_mem_of_notMem hle hout,
      set_mem_of_notMem hle hout]
  · rw [if_neg hne, set_mem_of_notMem hle hout, set_mem_of_notMem hle hout]

/-- The list stays as it is. -/
theorem Cells.mergePrev_stale : Cells (mergePrev h b.addr v) (pre ++ ([b] ++ post)) frames := by
  rw [hc.mergePrev_eq hstale]
  obtain ⟨hs, hgrid, hprevs⟩ := id hc
  have hb : b ∈ pre ++ ([b] ++ post) := List.mem_append_right _ (List.mem_cons_self ..)
  have himp := fun e v' (hv : Leads h _ frames e v') => hc.leads_staleMerge hstale hv
  have hget : ∀ c ∈ pre ++ ([b] ++ post), c.addr ≠ first post 0 →
      (staleMerge h b (first post 0) v).get c.addr .prev = h.get c.addr .prev :=
    fun c hcm hne => hc.staleMerge_get hstale hcm (.inr hne)
  have hkept : (staleMerge h b (first post 0) v).head = h.head ∧
      (staleMerge h b (first post 0) v).bitmap = h.bitmap := by
    unfold staleMerge
    dsimp only
    split <;> exact ⟨rfl, rfl⟩
  refine ⟨⟨hkept.1.trans hs.head_eq, ?_, hs.tiles, hs.size_pos, hkept.2 ▸ hs.used,
    hkept.2 ▸ hs.zero_used⟩, hgrid, ?_⟩
  · exact hs.linked.congr fun c hcm f hf => hc.staleMerge_get hstale hcm (.inl hf)
  · cases post with
    | nil => exact hprevs.imp himp fun c hcm => hget c hcm (hs.addr_ne_zero hcm)
    | cons z post =>
      have hz : z ∈ pre ++ ([b] ++ z :: post) :=
        List.mem_append_right _ (List.mem_append_right _ (List.mem_cons_self ..))
      have hout : ∀ c ∈ pre ++ ([b] ++ z :: post), c ≠ z →
          (staleMerge h b z.addr v).get c.addr .prev = h.get c.addr .prev :=
        fun c hcm hcz => hget c hcm fun heq => hcz (hs.eq_of_addr hcm hz heq)
      have hnodup := List.nodup_append.mp hs.nodup
      have hnodup' := List.nodup_cons.mp hnodup.2.1
      rw [prevs_append] at hprevs ⊢
      obtain ⟨hpre, hfirst, -, hpost⟩ := hprevs
      -- only `prev` of `z` changes, and what it holds then is the stale address
      refine ⟨hpre.imp himp fun c hcm => hout c (List.mem_append_left _ hcm) ?_, ?_, ?_, ?_⟩
      · exact hnodup.2.2 c hcm z (List.mem_cons_of_mem _ (List.mem_cons_self ..))
      · show Leads _ _ _ _ ((staleMerge h b z.addr v).get b.addr .prev)
        rw [hout b hb fun heq => hnodup'.1 (heq ▸ List.mem_cons_self ..)]
        exact himp _ _ hfirst
      · have hprev : (staleMerge h b z.addr v).get z.addr .prev = v := by
          have hle := hs.cell_le hstale.mem
          unfold blockSize at hle
          unfold staleMerge
          rw [if_pos (hs.addr_ne_zero hz)]
          exact get_set_self (by omega)
        show Leads _ _ _ _ ((staleMerge h b z.addr v).get z.addr .prev)
        rw [hprev]
        have hlt := hstale.lt
        have hpos := b.stop_pos
        exact .inr ⟨hstale.grid, hstale.mem, by omega,
          fun a ha ha' => Cells.stale_smooth hstale ha ha',
          hc.staleMerge_sizeOk hstale⟩
      · refine hpost.imp himp fun c hcm => hout c ?_ ?_
        · exact List.mem_append_right _ (List.mem_append_right _ (List.mem_cons_of_mem _ hcm))
        · rintro rfl
          exact (List.nodup_cons.mp hnodup'.2).1 hcm

end Stale

/-! ## Looking at the neighbours -/

theorem inUse_append {l₁ l₂ : List Block} : InUse (l₁ ++ l₂) p ↔ InUse l₁ p ∨ InUse l₂ p := by
  unfold InUse
  simp only [List.mem_append, or_and_right, exists_or]

theorem inUse_cons : InUse (b :: l) p ↔ (b.free = false ∧ p = b.addr + blockSize) ∨ InUse l p := by
  simp [InUse]

/-- A free block does not count. -/
theorem inUse_middle (hb : b.free = true) :
    InUse (pre ++ ([b] ++ post)) p ↔ InUse (pre ++ post) p := by
  have hnone : ¬ InUse [b] p := by
    rintro ⟨c, hc, hfree, -⟩
    rw [List.mem_singleton.mp hc, hb] at hfree
    cases hfree
  rw [inUse_append, inUse_append, inUse_append]
  simp [hnone]

/-- A free block has no payload to be kept. -/
theorem Cells.kept_middle (hc : Cells h (pre ++ ([b] ++ post)) frames) (hb : b.free = true)
    (hkept : ∀ c ∈ pre ++ ([b] ++ post), c.free = false → PayloadKept h h' c) :
    Kept h (pre ++ post) h' :=
  fun p hp => hc.kept hkept p ((inUse_middle hb).mpr hp)

theorem Cells.coalesceNext (hc : Cells h (pre ++ ([b] ++ post)) frames) (hb : b.free = true)
    (haddr : b.addr = a) :
    ∃ b' post', b'.addr = a ∧ b'.free = true ∧
      Cells (coalesceNext h a) (pre ++ ([b'] ++ post')) frames ∧
      (∀ p, InUse (pre ++ post') p ↔ InUse (pre ++ post) p) ∧
      Kept h (pre ++ post) (coalesceNext h a) := by
  subst haddr
  rcases hc.shape.coalesceNext_cases with ⟨n, post', rfl, hn, htouch, heq⟩ | ⟨heq, -⟩
  · have hc' : Cells h (pre ++ ([b, n] ++ post')) frames := hc
    rw [heq]
    refine ⟨b.join n, post', rfl, hb, hc'.mergeNext hb htouch, fun p => (inUse_middle hn).symm, ?_⟩
    exact hc.kept_middle hb fun c hcm _ => hc'.shape.payloadKept_mergeNext htouch hcm
  · rw [heq]
    exact ⟨b, post, rfl, hb, hc, fun p => Iff.rfl, Kept.refl h _⟩

/-- What is in front of a block that a word leads into. -/
theorem stopOf_concat (hlt : v < stopOf pre 0) :
    ∃ pre' x, pre = pre' ++ [x] ∧ stopOf pre 0 = x.stop := by
  rcases List.eq_nil_or_concat pre with rfl | ⟨pre', x, rfl⟩
  · exact absurd hlt (Nat.not_lt_zero v)
  · rw [List.concat_eq_append, stopOf_append]
    exact ⟨pre', x, rfl, rfl⟩

/-- A block that ends where the freed one begins, and that `prev` leads to, is the one in front
of it. -/
theorem Cells.front_eq (hc : Cells h (pre ++ ([b] ++ post)) frames) {w : Block}
    (hw : w ∈ pre ++ ([b] ++ post)) (htouch : w.stop = b.addr) (hlt : w.addr < stopOf pre 0)
    (hgap : ∀ a, w.addr < a → a < stopOf pre 0 → Smooth (pre ++ ([b] ++ post)) a) :
    ∃ pre', pre = pre' ++ [w] := by
  have hs := hc.shape
  have hwpos := w.stop_pos
  obtain ⟨pre', x, rfl, hstop⟩ := stopOf_concat hlt
  have hx : x ∈ pre' ++ [x] ++ ([b] ++ post) :=
    List.mem_append_left _ (List.mem_append_right _ (List.mem_cons_self ..))
  have hxpos := x.stop_pos
  rw [hstop] at hlt hgap
  have hle : x.stop ≤ w.stop := by
    by_contra hover
    have hsmooth := hgap w.stop (by omega) (by omega)
    rw [htouch] at hsmooth
    have hend := (hs.smooth_addr hsmooth).2
    omega
  -- the last byte of `x` is in both
  have hwx : w = x := by
    refine hs.eq_of_has (a := x.stop - 1) hw hx ?_ ?_ ?_ ?_ <;> omega
  exact ⟨pre', by rw [hwx]⟩

/-- The words at a stale place end at the freed block only when the block in front does. -/
theorem Cells.stale_of_sum (hc : Cells h (pre ++ ([b] ++ post)) frames) (hgrid : v % 64 = 0)
    (hmem : v / 4096 ∈ frames) (hnone : ∀ c ∈ pre ++ ([b] ++ post), c.addr ≠ v)
    (hlt : v < stopOf pre 0)
    (hgap : ∀ a, v < a → a < stopOf pre 0 → Smooth (pre ++ ([b] ++ post)) a)
    (hsize : ∀ a, v < a → a < v + blockSize + h.get v .size → Smooth (pre ++ ([b] ++ post)) a)
    (hsum : u32 (v + blockSize + h.get v .size) = b.addr) : Stale h pre b post frames v := by
  have hs := hc.shape
  -- the sum stays below 128 MiB, so it does not wrap
  have hsmall : v + blockSize + h.get v .size ≤ 134217728 := by
    by_contra hover
    have hv := (hs.used _ hmem).2.1
    unfold maxFrames at hv
    exact absurd (hs.smooth_lt (hsize 134217728 (by omega) (by omega))) (Nat.lt_irrefl _)
  have hsum : v + blockSize + h.get v .size = b.addr := by
    rw [← hsum]
    exact (Nat.mod_eq_of_lt (by omega)).symm
  obtain ⟨pre', x, rfl, hstop⟩ := stopOf_concat hlt
  refine ⟨hgrid, hmem, hnone, ?_, fun a ha ha' => hsize a ha (by omega), hsum, ?_⟩
  · unfold blockSize at hsum
    omega
  rw [hstop] at hlt hgap ⊢
  refine ⟨by simp, ?_⟩
  rcases Nat.lt_trichotomy x.stop b.addr with hless | heq | hgt
  · -- the words would lead over the gap behind `x`
    have hsmooth := hsize x.stop hlt (by omega)
    rw [List.append_assoc] at hs hsmooth
    exact (hs.smooth_stop hsmooth).symm
  · exact heq
  · have hbv : v < b.addr := by
      unfold blockSize at hsum
      omega
    exact hstop ▸ (hs.smooth_addr (hgap b.addr hbv hgt)).2

/-- The second join of `kfree`, with a true or a stale `prev`. -/
theorem Cells.coalescePrev (hc : Cells h (pre ++ ([b] ++ post)) frames) (hb : b.free = true)
    (haddr : b.addr = a) :
    ∃ l', Cells (coalescePrev h a) l' frames ∧ (∀ p, InUse l' p ↔ InUse (pre ++ post) p) ∧
      Kept h (pre ++ post) (coalescePrev h a) := by
  subst haddr
  have hs := hc.shape
  have hleads := (prevs_append.mp hc.prevs).2.1
  unfold Pelikan.coalescePrev
  dsimp only
  split
  · next hcond =>
    obtain ⟨hne, hfree, hsum⟩ := hcond
    generalize h.get b.addr .prev = v at hne hfree hsum hleads ⊢
    obtain ⟨hgrid, hmem, hlt, hgap, hok⟩ := hleads.resolve_left hne
    -- the word leads to a block of the list, or to a place inside one that has been joined
    by_cases hstart : ∃ w ∈ pre ++ ([b] ++ post), w.addr = v
    · obtain ⟨w, hw, rfl⟩ := hstart
      obtain ⟨next, hheader⟩ := hs.linked.exists_header hw
      rw [hheader.size, hs.u32_stop hw] at hsum
      rw [hheader.free, flag_eq_one_iff] at hfree
      obtain ⟨pre', rfl⟩ := hc.front_eq hw hsum hlt hgap
      rw [List.append_assoc] at hs hc
      have hs' : Shape h (pre' ++ ([w, b] ++ post)) frames := hs
      have hc' : Cells h (pre' ++ ([w, b] ++ post)) frames := hc
      rw [hs'.mergePrev_eq]
      refine ⟨_, hc'.mergeNext hfree hsum, fun p => ?_, ?_⟩
      · rw [inUse_middle (b := w.join b) hfree, List.append_assoc, inUse_middle hfree]
      · rw [List.append_assoc]
        intro p hp
        rw [inUse_middle hfree] at hp
        refine hc'.kept (fun c hcm _ => hs'.payloadKept_mergeNext hsum hcm) p ?_
        have hp : InUse (pre' ++ ([w] ++ ([b] ++ post))) p :=
          (inUse_middle hfree).mpr ((inUse_middle hb).mpr hp)
        exact hp
    · have hnone : ∀ c ∈ pre ++ ([b] ++ post), c.addr ≠ v := fun c hc heq => hstart ⟨c, hc, heq⟩
      have hstale := hc.stale_of_sum hgrid hmem hnone hlt hgap (hok.resolve_left hstart) hsum
      refine ⟨_, hc.mergePrev_stale hstale, fun p => inUse_middle hb, fun p hp => ?_⟩
      rw [hc.mergePrev_eq hstale]
      exact hc.kept_staleMerge hstale p ((inUse_middle hb).mpr hp)
  · exact ⟨_, hc, fun p => inUse_middle hb, Kept.refl h _⟩

/-! ## The call -/

/-- What `kfree` of a task does: one block less is in use. -/
structure Returned (h : Heap) (l : List Block) (frames : Finset Nat) (p : Nat) (h' : Heap)
    (l' : List Block) : Prop where
  cells : Cells h' l' frames
  inUse : ∀ q, InUse l' q ↔ InUse l q ∧ q ≠ p
  kept : ∀ q, InUse l' q → ∀ i, i < taskSize → h'.mem (q + i) = h.mem (q + i)

theorem Cells.kfree (hc : Cells h l frames) (hp : InUse l p) :
    ∃ l', Returned h l frames p (kfree h p) l' := by
  obtain ⟨b, hb, hfree, rfl⟩ := hp
  obtain ⟨pre, post, rfl⟩ := List.append_of_mem hb
  have hc : Cells h (pre ++ ([b] ++ post)) frames := hc
  have hs := hc.shape
  rw [kfree_eq hs hb]
  obtain ⟨b₁, post₁, haddr, hfree₁, hc₁, huse₁, hkept₁⟩ :=
    hc.marked.coalesceNext rfl (a := b.addr) rfl
  obtain ⟨l', hc', huse', hkept'⟩ := hc₁.coalescePrev hfree₁ haddr
  have hiff : ∀ q, InUse l' q ↔ InUse (pre ++ post) q := fun q => (huse' q).trans (huse₁ q)
  refine ⟨l', hc', fun q => ?_, fun q hq i hi => ?_⟩
  · rw [hiff, inUse_append, inUse_append, inUse_cons]
    -- nobody else has the pointer
    have hother : ∀ l'', (∀ c ∈ l'', c ∈ pre ++ post) → ¬ InUse l'' (b.addr + blockSize) := by
      rintro l'' hl'' ⟨c, hcm, -, heq⟩
      have hcm' := hl'' c hcm
      exact hs.ne_of_mem hcm' (hs.eq_of_addr (mem_middle hcm' _) hb (by omega))
    by_cases hq : q = b.addr + blockSize
    · subst hq
      have hpre := hother pre fun c hc => List.mem_append_left _ hc
      have hpost := hother post fun c hc => List.mem_append_right _ hc
      simp [hpre, hpost]
    · simp [hq]
  · have hq : InUse (pre ++ post) q := (hiff q).mp hq
    have hmarked : InUse (pre ++ ([b] ++ post)) q := by
      rw [inUse_append] at hq ⊢
      rw [inUse_append]
      exact hq.imp_right .inr
    rw [hkept' q ((huse₁ q).mpr hq) i hi, hkept₁ q hq i hi]
    exact hc.kept (fun c hcm _ => payloadKept_marked hs hb hcm) q hmarked i hi

end

end Pelikan

end SystemsProjects

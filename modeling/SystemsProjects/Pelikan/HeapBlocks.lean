import SystemsProjects.Lib.Tiling
import SystemsProjects.Pelikan.Heap
import SystemsProjects.Pelikan.PmmOwnership

/-!
# Blocks

The heap as a list of blocks. `Linked h l e`: the headers of the blocks `l` are in the
memory, each with the next block behind it, the last one with `e`. `Backed h p l`: the
`prev` words name the block in front, `p` for the first one. The two are kept apart,
since `kmalloc` does not keep the second.

`Shape h l frames`: the list from `head` is `l`, and the blocks with their headers tile
the frames that the heap has obtained. A segment of the list may be exchanged for another
one (`Shape.replace`), which is what `kmalloc` and `kfree` do.

`Linked` and `Backed` are functions on the list and split at any of its elements
(`linked_append`, `backed_append`), so a proof about one block puts it in the middle, `pre ++
([b] ++ post)`, and has the three parts to itself. All arithmetic on addresses is done on
numbers; the tiling bounds them by 128 MiB, so nothing wraps around.
-/

namespace SystemsProjects

namespace Pelikan

open ByteMemory

/-! ## Fields -/

section Fields

variable {h : Heap} {b c v a : Nat} {f g : Field}

@[simp] theorem set_head : (h.set b f v).head = h.head := rfl

@[simp] theorem set_bitmap : (h.set b f v).bitmap = h.bitmap := rfl

theorem offset_le (f : Field) : f.offset ≤ 16 := by
  cases f <;> decide

@[simp] theorem get_set_self (hv : v < 4294967296) : (h.set b f v).get b f = v :=
  word_setWord hv

/-- The fields of a header do not overlap. -/
theorem get_set_of_field_ne (hne : f ≠ g) : (h.set b f v).get b g = h.get b g := by
  refine word_congr fun i hi => setWord_of_ne fun j hj => ?_
  have hoff : g.offset + 4 ≤ f.offset ∨ f.offset + 4 ≤ g.offset := by
    cases f <;> cases g <;> first | exact absurd rfl hne | decide
  have hf := offset_le f
  have hg := offset_le g
  unfold byteAddr
  omega

/-- A store into a header changes bytes of that header only. -/
theorem set_mem_of_notMem (hb : b + blockSize ≤ 4294967296) (ha : a < b ∨ b + blockSize ≤ a) :
    (h.set b f v).mem a = h.mem a := by
  refine setWord_of_ne fun i hi => ?_
  have hf := offset_le f
  unfold blockSize at hb ha
  rw [byteAddr_of_lt (by omega)]
  omega

/-- Headers that do not overlap. -/
def HeadersApart (b c : Nat) : Prop := b + blockSize ≤ c ∨ c + blockSize ≤ b

theorem HeadersApart.symm (h : HeadersApart b c) : HeadersApart c b := Or.symm h

/-- A field depends on the bytes of its header only. -/
theorem get_congr {h' : Heap} (hc : c + blockSize ≤ 4294967296)
    (hmem : ∀ a, c ≤ a → a < c + blockSize → h'.mem a = h.mem a) : h'.get c g = h.get c g := by
  refine word_congr fun i hi => ?_
  have hg := offset_le g
  unfold blockSize at hc hmem
  rw [byteAddr_of_lt (by omega)]
  exact hmem _ (by omega) (by omega)

theorem get_set_of_apart (hb : b + blockSize ≤ 4294967296) (hc : c + blockSize ≤ 4294967296)
    (hapart : HeadersApart b c) : (h.set b f v).get c g = h.get c g := by
  refine get_congr hc fun a ha ha' => set_mem_of_notMem hb ?_
  unfold HeadersApart blockSize at *
  omega

theorem get_lt (h : Heap) (b : Nat) (f : Field) : h.get b f < 4294967296 := word_lt ..

end Fields

/-! ## Lists of blocks -/

/-- What the header of a block says. -/
structure Block where
  addr : Nat
  size : Nat
  free : Bool
  deriving DecidableEq

namespace Block

/-- The first address behind the block. -/
def stop (b : Block) : Nat := b.addr + blockSize + b.size

/-- The header and the payload. -/
def span (b : Block) : Span := ⟨b.addr, b.stop⟩

/-- `free` as it is stored. -/
def flag (b : Block) : Nat := if b.free then 1 else 0

/-- The magic number that goes with `free`. -/
def magic (b : Block) : Nat := if b.free then heapMagicFree else heapMagicAlloc

end Block

/-- The header of the block is in the memory, with `next` behind it. -/
structure Header (h : Heap) (b : Block) (next : Nat) : Prop where
  size : h.get b.addr .size = b.size
  free : h.get b.addr .free = b.flag
  magic : h.get b.addr .magic = b.magic
  next : h.get b.addr .next = next

/-- The address of the first block, or `e` when there is none. -/
def first : List Block → Nat → Nat
  | [], e => e
  | b :: _, _ => b.addr

/-- The address of the last block, or `p` when there is none. -/
def last : List Block → Nat → Nat
  | [], p => p
  | b :: l, _ => last l b.addr

/-- The headers of the blocks, linked forwards and to `e`. -/
def Linked (h : Heap) : List Block → Nat → Prop
  | [], _ => True
  | b :: l, e => Header h b (first l e) ∧ Linked h l e

/-- The blocks are linked backwards and to `p`. -/
def Backed (h : Heap) : Nat → List Block → Prop
  | _, [] => True
  | p, b :: l => h.get b.addr .prev = p ∧ Backed h b.addr l

section Lists

variable {h h' : Heap} {l l₁ l₂ : List Block} {e p : Nat}

theorem first_append (l₁ l₂ : List Block) (e : Nat) :
    first (l₁ ++ l₂) e = first l₁ (first l₂ e) := by
  cases l₁ with
  | nil => rfl
  | cons b l₁ => rfl

theorem last_append (l₁ l₂ : List Block) (p : Nat) :
    last (l₁ ++ l₂) p = last l₂ (last l₁ p) := by
  induction l₁ generalizing p with
  | nil => rfl
  | cons b l₁ ih => exact ih b.addr

/-- The last block is a member, when there is one. -/
theorem last_cases (l : List Block) : l = [] ∨ ∃ b ∈ l, ∀ p, last l p = b.addr := by
  rcases List.eq_nil_or_concat l with rfl | ⟨l', b, rfl⟩
  · exact .inl rfl
  · rw [List.concat_eq_append]
    refine .inr ⟨b, List.mem_append_right _ (List.mem_cons_self ..), fun p => ?_⟩
    rw [last_append]
    rfl

/-- Links of a concatenation: those of the parts, and the seam. -/
theorem linked_append : Linked h (l₁ ++ l₂) e ↔ Linked h l₁ (first l₂ e) ∧ Linked h l₂ e := by
  induction l₁ with
  | nil => exact ⟨fun h => ⟨trivial, h⟩, And.right⟩
  | cons b l₁ ih =>
    show Header h b (first (l₁ ++ l₂) e) ∧ Linked h (l₁ ++ l₂) e ↔ _
    rw [ih, first_append, ← and_assoc]
    rfl

/-- The back links of two lists, the second one behind the last block of the first. -/
theorem backed_append :
    Backed h p (l₁ ++ l₂) ↔ Backed h p l₁ ∧ Backed h (last l₁ p) l₂ := by
  induction l₁ generalizing p with
  | nil => exact ⟨fun h => ⟨trivial, h⟩, And.right⟩
  | cons b l₁ ih =>
    show h.get b.addr .prev = p ∧ Backed h b.addr (l₁ ++ l₂) ↔ _
    rw [ih, ← and_assoc]
    rfl

/-- A header is known by its fields, `prev` apart. -/
theorem Header.congr {b : Block} {next : Nat} (hb : Header h b next)
    (hget : ∀ f, f ≠ .prev → h'.get b.addr f = h.get b.addr f) : Header h' b next where
  size := (hget .size nofun).trans hb.size
  free := (hget .free nofun).trans hb.free
  magic := (hget .magic nofun).trans hb.magic
  next := (hget .next nofun).trans hb.next

theorem Linked.congr (hl : Linked h l e)
    (hget : ∀ b ∈ l, ∀ f, f ≠ .prev → h'.get b.addr f = h.get b.addr f) : Linked h' l e := by
  induction l with
  | nil => trivial
  | cons b l ih =>
    exact ⟨hl.1.congr (hget b (List.mem_cons_self ..)),
      ih hl.2 fun c hc => hget c (List.mem_cons_of_mem b hc)⟩

/-- The link of the last block is changed. -/
theorem Linked.relink {e' : Nat} {b : Block} (hl : Linked h (l ++ [b]) e)
    (hb : ∀ f, f ≠ .prev → f ≠ .next → h'.get b.addr f = h.get b.addr f)
    (hnext : h'.get b.addr .next = e')
    (hget : ∀ c ∈ l, ∀ f, f ≠ .prev → h'.get c.addr f = h.get c.addr f) :
    Linked h' (l ++ [b]) e' := by
  rw [linked_append] at hl ⊢
  obtain ⟨hfront, hlast, -⟩ := hl
  exact ⟨hfront.congr hget, ⟨(hb .size nofun nofun).trans hlast.size,
    (hb .free nofun nofun).trans hlast.free, (hb .magic nofun nofun).trans hlast.magic,
    hnext⟩, trivial⟩

theorem Backed.congr (hl : Backed h p l)
    (hget : ∀ b ∈ l, h'.get b.addr .prev = h.get b.addr .prev) : Backed h' p l := by
  induction l generalizing p with
  | nil => trivial
  | cons b l ih =>
    exact ⟨(hget b (List.mem_cons_self ..)).trans hl.1,
      ih hl.2 fun c hc => hget c (List.mem_cons_of_mem b hc)⟩

end Lists

/-! ## The shape of the heap -/

/-- The list from `head` is `l`, and it tiles the frames of the heap. -/
structure Shape (h : Heap) (l : List Block) (frames : Finset Nat) : Prop where
  head_eq : h.head = first l 0
  linked : Linked h l 0
  tiles : Tiles (l.map Block.span) (fun a => a / 4096 ∈ frames)
  size_pos : ∀ b ∈ l, 0 < b.size
  used : ∀ f ∈ frames, 0 < f ∧ f < maxFrames ∧ bitAt h.bitmap f = true
  zero_used : bitAt h.bitmap 0 = true

namespace Shape

variable {h h' : Heap} {l pre seg seg' post : List Block} {frames : Finset Nat} {b c : Block}

/-- Blocks lie in the memory that the frame allocator manages, behind frame 0. -/
theorem bounds (hs : Shape h l frames) (hb : b ∈ l) : 4096 ≤ b.addr ∧ b.stop ≤ 134217728 := by
  have hpos := hs.size_pos b hb
  have hin : ∀ a, b.span.Has a → a / 4096 ∈ frames := fun a ha => hs.tiles.covered hb ha
  have hstart :=
    hs.used _ (hin b.addr ⟨Nat.le_refl _, by show b.addr < b.addr + 20 + b.size; omega⟩)
  have hstop := hs.used _ (hin (b.stop - 1) ⟨by show b.addr ≤ b.addr + 20 + b.size - 1; omega,
    by show b.addr + 20 + b.size - 1 < b.addr + 20 + b.size; omega⟩)
  unfold maxFrames at hstop
  omega

theorem addr_ne_zero (hs : Shape h l frames) (hc : c ∈ l) : c.addr ≠ 0 := by
  have hbounds := (hs.bounds hc).1
  omega

/-- Every block has its header, with the next block in it. -/
theorem header (hs : Shape h (pre ++ ([b] ++ post)) frames) : Header h b (first post 0) :=
  (linked_append.mp hs.linked).2.1

/-- Different blocks do not overlap. -/
theorem apart (hs : Shape h l frames) (hb : b ∈ l) (hc : c ∈ l) (hne : b ≠ c) :
    b.stop ≤ c.addr ∨ c.stop ≤ b.addr := by
  refine (hs.tiles.apart hb hc hne).le_or_le ?_ ?_
  · show b.addr < b.addr + 20 + b.size
    omega
  · show c.addr < c.addr + 20 + c.size
    omega

/-- Headers of different blocks do not overlap. -/
theorem headersApart (hs : Shape h l frames) (hb : b ∈ l) (hc : c ∈ l) (hne : b ≠ c) :
    HeadersApart b.addr c.addr := by
  have happart := hs.apart hb hc hne
  unfold HeadersApart Block.stop at *
  omega

/-- The address tells the block. -/
theorem eq_of_addr (hs : Shape h l frames) (hb : b ∈ l) (hc : c ∈ l) (haddr : b.addr = c.addr) :
    b = c := by
  by_contra hne
  have happart := hs.headersApart hb hc hne
  unfold HeadersApart blockSize at happart
  omega

theorem nodup (hs : Shape h l frames) : l.Nodup := by
  refine hs.tiles.nodup fun b hb => ?_
  have hpos := hs.size_pos b hb
  show b.addr < b.addr + 20 + b.size
  omega

theorem header_le (hs : Shape h l frames) (hb : b ∈ l) : b.addr + blockSize ≤ 4294967296 := by
  have hbounds := (hs.bounds hb).2
  unfold Block.stop at hbounds
  omega

/-- The members in front of a block and behind it are other blocks. -/
theorem ne_of_mem (hs : Shape h (pre ++ b :: post) frames) (hc : c ∈ pre ++ post) : c ≠ b := by
  rintro rfl
  have hnodup := List.nodup_middle.mp hs.nodup
  exact (List.nodup_cons.mp hnodup).1 hc

/-- A segment of the list is exchanged for one at the same place. -/
theorem replace (hs : Shape h (pre ++ (seg ++ post)) frames)
    (hbitmap : h'.bitmap = h.bitmap) (hhead : h'.head = h.head)
    (hfirst : first (seg' ++ post) 0 = first (seg ++ post) 0)
    (hlinked : Linked h' seg' (first post 0))
    (hget : ∀ c ∈ pre ++ post, ∀ f, f ≠ .prev → h'.get c.addr f = h.get c.addr f)
    (htiles : Tiles ((pre ++ (seg' ++ post)).map Block.span) (fun a => a / 4096 ∈ frames))
    (hpos : ∀ b ∈ seg', 0 < b.size) : Shape h' (pre ++ (seg' ++ post)) frames where
  head_eq := by
    rw [hhead, hs.head_eq, first_append, first_append pre, hfirst]
  linked := by
    have hold := hs.linked
    rw [linked_append, linked_append] at hold ⊢
    rw [hfirst]
    exact ⟨hold.1.congr fun c hc => hget c (List.mem_append_left post hc), hlinked,
      hold.2.2.congr fun c hc => hget c (List.mem_append_right pre hc)⟩
  tiles := htiles
  size_pos b hb := by
    rw [List.mem_append, List.mem_append] at hb
    rcases hb with hb | hb | hb
    · exact hs.size_pos b (List.mem_append_left _ hb)
    · exact hpos b hb
    · exact hs.size_pos b (List.mem_append_right _ (List.mem_append_right _ hb))
  used := hbitmap ▸ hs.used
  zero_used := hbitmap ▸ hs.zero_used

end Shape

end Pelikan

end SystemsProjects

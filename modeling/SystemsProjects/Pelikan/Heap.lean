import SystemsProjects.Lib.ByteMemory
import SystemsProjects.Lib.Fuel
import SystemsProjects.Pelikan.Pmm

/-!
# The kernel heap (`heap.c`)

`kmalloc` and `kfree` over byte memory. The header of a block, `block_t`, stands in the
20 bytes in front of its payload. Pointers and sizes are numbers below `2 ^ 32`, the
arithmetic on them wraps around, and any address can be dereferenced, so that following
a wrong pointer does to the memory what it does on the machine.

The printed texts are left out. A `hlt` is ended by the next interrupt, so `kfree` goes
on after each of its two error messages.

A call of `kmalloc` walks along a list that may be circular when it has been damaged, so the
walk has fuel; everything else is a function. `Field` names the five words of a header, with
their offsets.
-/

namespace SystemsProjects

namespace Pelikan

open ByteMemory

/-- The fields of `block_t`. -/
inductive Field where
  | size
  | free
  | magic
  | next
  | prev
  deriving DecidableEq

/-- Where the field stands in the header. -/
def Field.offset : Field → Nat
  | .size => 0
  | .free => 4
  | .magic => 8
  | .next => 12
  | .prev => 16

/-- `BLOCK_SIZE` -/
def blockSize : Nat := 20

/-- `HEAP_MAGIC_ALLOC` -/
def heapMagicAlloc : Nat := 0xDEADBEEF

/-- `HEAP_MAGIC_FREE` -/
def heapMagicFree : Nat := 0xFEEEFEEE

/-- The memory, the `head` of the list of blocks, and the bitmap of the frame allocator. -/
structure Heap where
  mem : ByteMemory
  head : Nat
  bitmap : Bitmap

/-- `uint32_t` arithmetic. -/
def u32 (n : Nat) : Nat := n % 4294967296

namespace Heap

/-- `block->f` -/
def get (h : Heap) (block : Nat) (f : Field) : Nat := word h.mem (block + f.offset)

/-- `block->f = v` -/
def set (h : Heap) (block : Nat) (f : Field) (v : Nat) : Heap :=
  { h with mem := setWord h.mem (block + f.offset) v }

end Heap

/-- What ends a call of `kmalloc` other than its return. -/
inductive HeapStop where
  | pmm (e : PmmStop)
  /-- The endless loop over `hlt` in `request_space`. -/
  | halted
  deriving DecidableEq

/-- What `request_space` writes: the header of the new frame, and the link to it. -/
def linkFrame (h : Heap) (block last : Nat) : Heap :=
  let h := h.set block .size (4096 - blockSize)
  let h := h.set block .free 1
  let h := h.set block .magic heapMagicFree
  let h := h.set block .next 0
  if last ≠ 0 then (h.set block .prev last).set last .next block else h.set block .prev 0

/-- `request_space`: a new frame, linked behind `last`. -/
def requestSpace (h : Heap) (last : Nat) : Fueled HeapStop (Nat × Heap) :=
  match pmmAllocFrame h.bitmap with
  | .error e => .stop (.pmm e)
  | .ok (raw, bitmap) =>
    let block := raw.toNat
    if block = 0 then .stop .halted
    else .done (block, linkFrame { h with bitmap } block last)

/-- Cut `current` in two, the first part of `size` bytes. -/
def splitBlock (h : Heap) (current size : Nat) : Heap :=
  let newBlock := u32 (current + blockSize + size)
  let h := h.set newBlock .size (u32 (h.get current .size + 4294967296 - size - blockSize))
  let h := h.set newBlock .free 1
  let h := h.set newBlock .next (h.get current .next)
  let h := h.set newBlock .prev current
  let h := h.set newBlock .magic heapMagicFree
  let h := h.set current .size size
  let h := h.set current .free 0
  h.set current .next newBlock

/-- The search of `kmalloc` from `current` on, `last` in front of it. A new frame is
requested at the end of the list. -/
def search (size : Nat) : Nat → Heap → Nat → Nat → Fueled HeapStop (Nat × Heap)
  | 0, _, _, _ => .out
  | n + 1, h, current, last =>
    if current ≠ 0 then
      if h.get current .free = 1 then
        if h.get current .size = size then
          let h := h.set current .free 0
          .done (u32 (current + blockSize), h.set current .magic heapMagicAlloc)
        else if u32 (size + blockSize + 1) ≤ h.get current .size then
          let h := splitBlock h current size
          .done (u32 (current + blockSize), h.set current .magic heapMagicAlloc)
        else if size < h.get current .size then
          let h := h.set current .free 0
          .done (u32 (current + blockSize), h.set current .magic heapMagicAlloc)
        else search size n h (h.get current .next) current
      else search size n h (h.get current .next) current
    else
      match requestSpace h last with
      | .done (block, h) => if block = 0 then .done (0, h) else search size n h block last
      | .stop e => .stop e
      | .out => .out

/-- `kmalloc` -/
def kmalloc (h : Heap) (size : Nat) (n : Nat) : Fueled HeapStop (Nat × Heap) :=
  if size = 0 then .done (0, h)
  else if 4096 - blockSize < size then .done (0, h)
  else if h.head = 0 then
    match requestSpace h 0 with
    | .done (block, h) =>
      let h := { h with head := block }
      search size n h h.head 0
    | .stop e => .stop e
    | .out => .out
  else search size n h h.head 0

/-- Join `block` with the block `next` behind it. -/
def mergeNext (h : Heap) (block next : Nat) : Heap :=
  let h := h.set block .size (u32 (h.get block .size + blockSize + h.get next .size))
  let h := h.set block .next (h.get next .next)
  if h.get next .next ≠ 0 then h.set (h.get block .next) .prev block else h

/-- `kfree` looks at the block behind. -/
def coalesceNext (h : Heap) (block : Nat) : Heap :=
  let next := h.get block .next
  if next ≠ 0 ∧ h.get next .free = 1 ∧ u32 (block + blockSize + h.get block .size) = next
  then mergeNext h block next else h

/-- Join `block` with the block `prev` in front of it. -/
def mergePrev (h : Heap) (block prev : Nat) : Heap :=
  let h := h.set prev .size (u32 (h.get prev .size + blockSize + h.get block .size))
  let h := h.set prev .next (h.get block .next)
  if h.get block .next ≠ 0 then h.set (h.get block .next) .prev prev else h

/-- `kfree` looks at the block in front. -/
def coalescePrev (h : Heap) (block : Nat) : Heap :=
  let prev := h.get block .prev
  if prev ≠ 0 ∧ h.get prev .free = 1 ∧ u32 (prev + blockSize + h.get prev .size) = block
  then mergePrev h block prev else h

/-- What `kfree` reports about its argument, a pointer that is not null. -/
inductive FreeReport where
  /-- "bad free - not my block" -/
  | badFree
  /-- "double free" -/
  | doubleFree
  | freed
  deriving DecidableEq

/-- The two tests of `kfree` on the magic number. -/
def kfreeReport (h : Heap) (ptr : Nat) : FreeReport :=
  let block := u32 (ptr + 4294967296 - blockSize)
  if h.get block .magic ≠ heapMagicAlloc ∧ h.get block .magic ≠ heapMagicFree then .badFree
  else if h.get block .magic = heapMagicFree then .doubleFree
  else .freed

/-- `kfree` -/
def kfree (h : Heap) (ptr : Nat) : Heap :=
  if ptr = 0 then h
  else
    let block := u32 (ptr + 4294967296 - blockSize)
    -- what `kfreeReport` finds is only printed
    let h := h.set block .free 1
    let h := h.set block .magic heapMagicFree
    coalescePrev (coalesceNext h block) block

end Pelikan

end SystemsProjects

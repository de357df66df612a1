import SystemsProjects.Lib.Checked
import SystemsProjects.Lib.Bitmap

/-!
# The frame allocator (`pmm.c`)

`pmm_alloc_frame`, `pmm_free_frame`, `pmm_alloc_contiguous` and `pmm_free_count` over the
bitmap, one bit for each frame of 4096 bytes, 1 for a frame in use. The bitmap is a
function from byte indices, and every access checks the index against its 4096 bytes.

The search for a run of frames is the sliding window of the source, with its two variables. A
fault is reported with no state, since nothing is claimed of what comes after it.
-/

namespace SystemsProjects

namespace Pelikan

/-- `uint32_t`. -/
abbrev U32 := BitVec 32

/-- `bitmap` -/
abbrev Bitmap := Nat → BitVec 8

/-- `MAX_FRAMES` -/
def maxFrames : Nat := 32768

/-- The bytes of `bitmap`. -/
def bitmapSize : Nat := 4096

/-- The fault of the model: an access to `bitmap[i]` outside the array. -/
inductive PmmStop where
  | bitmapOutOfBounds (i : Nat)
  deriving DecidableEq

/-- The value that reports that memory is exhausted. -/
def noFrame : U32 := 0xFFFFFFFF

/-- `bitmap[f / 8] & (1 << (f % 8))` -/
def testFrame (b : Bitmap) (f : Nat) : Except PmmStop Bool :=
  if f / 8 < bitmapSize then .ok (b (f / 8) &&& bitMask f ≠ 0)
  else .error (.bitmapOutOfBounds (f / 8))

/-- `bitmap[f / 8] |= (1 << (f % 8))` -/
def setFrame (b : Bitmap) (f : Nat) : Except PmmStop Bitmap :=
  if f / 8 < bitmapSize then .ok (Function.update b (f / 8) (b (f / 8) ||| bitMask f))
  else .error (.bitmapOutOfBounds (f / 8))

/-- `bitmap[f / 8] &= ~(1 << (f % 8))` -/
def clearFrame (b : Bitmap) (f : Nat) : Except PmmStop Bitmap :=
  if f / 8 < bitmapSize then .ok (Function.update b (f / 8) (b (f / 8) &&& ~~~(bitMask f)))
  else .error (.bitmapOutOfBounds (f / 8))

/-- The address of a frame. -/
def frameAddr (f : Nat) : U32 := BitVec.ofNat 32 (f * 4096)

/-- The loop of `pmm_alloc_frame` over the `k` frames from `frame` on. -/
def allocFrameFrom (b : Bitmap) : Nat → Nat → Except PmmStop (U32 × Bitmap)
  | 0, _ => .ok (noFrame, b)
  | k + 1, frame => do
    let used ← testFrame b frame
    if used then allocFrameFrom b k (frame + 1)
    else do
      let b ← setFrame b frame
      return (frameAddr frame, b)

/-- `pmm_alloc_frame` -/
def pmmAllocFrame (b : Bitmap) : Except PmmStop (U32 × Bitmap) :=
  allocFrameFrom b maxFrames 0

/-- `pmm_free_frame` -/
def pmmFreeFrame (b : Bitmap) (frameAddr : U32) : Except PmmStop Bitmap :=
  clearFrame b (frameAddr.toNat / 4096)

/-- The sliding window of `pmm_alloc_contiguous`: the window is `start .. last`, and `k`
frames from `last` on are left. -/
def contiguousFrom (b : Bitmap) (n : U32) : Nat → Nat → Nat → Except PmmStop (Option (Nat × Nat))
  | 0, _, _ => .ok none
  | k + 1, start, last => do
    let used ← testFrame b last
    if used then contiguousFrom b n k (last + 1) (last + 1)
    else if BitVec.ofNat 32 (last - start + 1) = n then return some (start, last)
    else contiguousFrom b n k start (last + 1)

/-- The loop that marks `k` frames from `f` on. -/
def markFrom (b : Bitmap) : Nat → Nat → Except PmmStop Bitmap
  | 0, _ => .ok b
  | k + 1, f => do
    let b ← setFrame b f
    markFrom b k (f + 1)

/-- `pmm_alloc_contiguous`; the `int` parameter is compared as a `uint32_t`. -/
def pmmAllocContiguous (b : Bitmap) (n : U32) : Except PmmStop (U32 × Bitmap) := do
  match ← contiguousFrom b n maxFrames 0 0 with
  | none => return (noFrame, b)
  | some (start, last) =>
    let b ← markFrom b (last - start + 1) start
    return (frameAddr start, b)

/-- The loop of `pmm_free_count` over the `k` frames from `f` on. -/
def freeCountFrom (b : Bitmap) : Nat → Nat → U32 → Except PmmStop U32
  | 0, _, free => .ok free
  | k + 1, f, free => do
    let used ← testFrame b f
    freeCountFrom b k (f + 1) (if used then free else free + 1)

/-- `pmm_free_count` -/
def pmmFreeCount (b : Bitmap) : Except PmmStop U32 := freeCountFrom b maxFrames 0 0

end Pelikan

end SystemsProjects

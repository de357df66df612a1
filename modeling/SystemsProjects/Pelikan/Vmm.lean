import SystemsProjects.Pelikan.HeapFaults

/-!
# Page tables (`vmm.c`)

`vmm_init`, `vmm_map_page` and `vmm_unmap_page` over the memory of the heap. Beside what the source
keeps (`page_directory`), the state records which frames the vmm has obtained from
`pmm_alloc_frame`, and the stores of `vmm_map_page` and `vmm_unmap_page` into what they take for
page tables, each with the frames obtained by then.

The static `page_table` is left out, since nothing reads it, and so are the control registers: the
memory is the physical one, as it is until `vmm_init` has switched paging on.

- `vmmUnmapPage_real`: behind `vmm_init` a page of the first 4 MiB is unmapped in the table that
  `vmm_init` has obtained.

The state records what the source does not keep, so that it can be said which frames are the
vmm's own. A store is recorded whether or not its address is good: `TableStore.Real` says that
it goes into a frame obtained by then, and this fails in a kernel that never calls `vmm_init`.
-/

namespace SystemsProjects

namespace Pelikan

open ByteMemory

/-- A store into a page table or the page directory, with the frames that the vmm had obtained. -/
structure TableStore where
  addr : Nat
  obtained : List Nat

/-- `page_directory`, the frames obtained from `pmm_alloc_frame`, and the stores made so far, the
latest first. -/
structure Paging where
  directory : Nat
  obtained : List Nat
  stores : List TableStore

/-- `virt >> 22` -/
def dirIndex (virt : Nat) : Nat := virt / 4194304

/-- `(virt >> 12) & 0x3FF` -/
def tableIndex (virt : Nat) : Nat := virt / 4096 % 1024

/-- `entry & 0xFFFFF000` -/
def tableOf (entry : Nat) : Nat := entry / 4096 * 4096

/-- `PAGE_PRESENT | PAGE_RW` -/
def pagePresentRw : Nat := 3

/-- `*a = v`, a store that is recorded. -/
def storeEntry (h : Heap) (p : Paging) (a v : Nat) : Heap × Paging :=
  ({ h with mem := setWord h.mem a v }, { p with stores := ⟨u32 a, p.obtained⟩ :: p.stores })

/-- `memset` -/
def memset (m : ByteMemory) (a : Nat) (val : BitVec 8) : Nat → ByteMemory
  | 0 => m
  | n + 1 => Function.update (memset m a val n) (byteAddr a n) val

/-- The loop of `vmm_init` over the `n` first entries of the table. -/
def identityTable (m : ByteMemory) (table : Nat) : Nat → ByteMemory
  | 0 => m
  | n + 1 => setWord (identityTable m table n) (table + 4 * n) (n * 4096 ||| pagePresentRw)

/-- The frame is the vmm's, unless there was none left. -/
def Paging.obtain (p : Paging) (frame : U32) : Paging :=
  { p with obtained := if frame = noFrame then p.obtained else frame.toNat :: p.obtained }

/-- `vmm_init` -/
def vmmInit (h : Heap) (p : Paging) : Except PmmStop (Heap × Paging) := do
  let (directory, bitmap) ← pmmAllocFrame h.bitmap
  let mem := memset h.mem directory.toNat 0 4096
  let (table, bitmap) ← pmmAllocFrame bitmap
  let mem := identityTable mem table.toNat 1024
  let mem := setWord mem directory.toNat (table.toNat ||| pagePresentRw)
  let p := (p.obtain directory).obtain table
  return ({ h with mem, bitmap }, { p with directory := directory.toNat })

/-- `vmm_map_page` -/
def vmmMapPage (h : Heap) (p : Paging) (virt phys : Nat) : Except PmmStop (Heap × Paging) := do
  let entry := p.directory + 4 * dirIndex virt
  let (h, p) ←
    if word h.mem entry % 2 = 0 then do
      let (newTable, bitmap) ← pmmAllocFrame h.bitmap
      let h := { h with mem := memset h.mem newTable.toNat 0 4096, bitmap }
      pure (storeEntry h (p.obtain newTable) entry (newTable.toNat ||| pagePresentRw))
    else pure (h, p)
  let pageTable := tableOf (word h.mem entry)
  return storeEntry h p (pageTable + 4 * tableIndex virt) (phys ||| pagePresentRw)

/-- `vmm_unmap_page` -/
def vmmUnmapPage (h : Heap) (p : Paging) (virt : Nat) : Heap × Paging :=
  let pageTable := tableOf (word h.mem (p.directory + 4 * dirIndex virt))
  storeEntry h p (pageTable + 4 * tableIndex virt) 0

/-- The store goes into a frame that the vmm had obtained. -/
def TableStore.Real (s : TableStore) : Prop :=
  ∃ r ∈ s.obtained, r ≤ s.addr ∧ s.addr + 4 ≤ r + 4096

/-- All stores do. -/
def Paging.Real (p : Paging) : Prop := ∀ s ∈ p.stores, s.Real

section

variable {h h' : Heap} {p p' : Paging} {virt phys : Nat}

/-! ## What is recorded -/

/-- The stores that have been made stay made. -/
theorem vmmMapPage_stores (hcall : vmmMapPage h p virt phys = .ok (h', p')) :
    p.stores <:+ p'.stores := by
  unfold vmmMapPage at hcall
  by_cases hpresent : word h.mem (p.directory + 4 * dirIndex virt) % 2 = 0
  · simp only [if_pos hpresent] at hcall
    cases halloc : pmmAllocFrame h.bitmap with
    | error e =>
      rw [halloc] at hcall
      cases hcall
    | ok r =>
      rw [halloc] at hcall
      obtain ⟨-, rfl⟩ := Prod.mk.inj (Except.ok.inj hcall)
      exact (List.suffix_cons ..).trans (List.suffix_cons ..)
  · simp only [if_neg hpresent] at hcall
    obtain ⟨-, rfl⟩ := Prod.mk.inj (Except.ok.inj hcall)
    exact List.suffix_cons ..

/-! ## With page tables -/

/-- The flags are put into the low bits of a page address. -/
theorem or_pagePresentRw (f : Nat) : f * 4096 ||| pagePresentRw = f * 4096 + 3 := by
  have hor := Nat.two_pow_add_eq_or_of_lt (i := 12) (b := 3) (by decide) f
  rw [Nat.mul_comm] at hor
  exact hor.symm

theorem tableOf_present (f : Nat) : tableOf (f * 4096 + 3) = f * 4096 := by
  unfold tableOf
  omega

/-- After `vmm_init` an unmap in the first 4 MiB stores into the table that was obtained for them.
-/
theorem vmmUnmapPage_real {f g : Nat} {b b' : Bitmap} (hg : g < maxFrames)
    (hdir : pmmAllocFrame h.bitmap = .ok (frameAddr f, b))
    (htable : pmmAllocFrame b = .ok (frameAddr g, b')) (hinit : vmmInit h p = .ok (h', p'))
    (hreal : p.Real) (hvirt : virt < 4194304) : (vmmUnmapPage h' p' virt).2.Real := by
  have hgframe : frameAddr g ≠ noFrame := by
    intro heq
    have hnat := congrArg BitVec.toNat heq
    rw [frameAddr_toNat hg, show noFrame.toNat = 4294967295 from rfl] at hnat
    omega
  unfold vmmInit at hinit
  rw [hdir] at hinit
  simp only [ok_bind] at hinit
  rw [htable] at hinit
  obtain ⟨rfl, rfl⟩ := Prod.mk.inj (Except.ok.inj hinit)
  -- the writes of `vmm_init`, and the one of the call
  intro s hs
  rcases List.mem_cons.mp hs with rfl | hs
  · -- the entry is the one that `vmm_init` has stored last
    have hindex : dirIndex virt = 0 := Nat.div_eq_of_lt hvirt
    have hentry : tableIndex virt < 1024 := Nat.mod_lt _ (by decide)
    refine ⟨(frameAddr g).toNat, ?_, ?_⟩
    · show (frameAddr g).toNat ∈ ((p.obtain (frameAddr f)).obtain (frameAddr g)).obtained
      unfold Paging.obtain
      rw [if_neg hgframe]
      exact List.mem_cons_self ..
    · simp only [hindex, Nat.mul_zero, Nat.add_zero, frameAddr_toNat hg, or_pagePresentRw]
      unfold maxFrames at hg
      rw [word_setWord (by omega), tableOf_present]
      unfold u32
      omega
  · exact hreal s hs

end

end Pelikan

end SystemsProjects

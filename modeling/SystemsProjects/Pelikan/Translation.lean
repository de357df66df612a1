import SystemsProjects.Lib.Transition
import SystemsProjects.Pelikan.Vmm

/-!
# Virtual addresses (`vmm_map_page`, `vmm_unmap_page`)

The walk of the processor over the page directory and the page tables, and what the two functions
do to it. The vmm runs beside others, who may do what they like with memory and with the frame
allocator as long as they leave the frames alone that the vmm has obtained.

- `PageTables`: the invariant. The directory and the tables it names are distinct frames that the
  vmm has obtained, or the entry is what an exhausted allocator has left.
- `ensureTable`, `vmmMapPage_eq`: `vmm_map_page` in two parts, the table of the region and the
  entry in it.
- `PageTables.translate_store`, `PageTables.translate_store_ne`: storing an entry changes the walk
  of its own page and no other.
- `vmmInit_spec`: what `vmm_init` leaves is such a directory.

Frames are disjoint, so a store into a table changes no directory entry and no other table, and
a walk depends on two words only. A new table is one more frame, filled with zeros, and no walk
that went anywhere before goes through it. When no frame is left the directory gets an entry
that names the last page of the memory (`lostEntry`); what is stored through that, or through an
entry that is zero, lands outside of all frames of the vmm.
-/

namespace SystemsProjects

namespace Pelikan

open ByteMemory

/-- `page_directory[i]` -/
def dirEntry (h : Heap) (p : Paging) (i : Nat) : Nat := word h.mem (p.directory + 4 * i)

/-- `entry & 0x01`, in the directory or in a table. -/
def Present (entry : Nat) : Prop := entry % 2 = 1

/-- `entry & PAGE_RW` -/
def writable (entry : Nat) : Bool := entry / 2 % 2 = 1

instance (entry : Nat) : Decidable (Present entry) := inferInstanceAs (Decidable (_ = _))

/-- The second level of the walk, through the table that an entry of the directory names. -/
def pageAt (m : ByteMemory) (entry virt : Nat) : Option (Nat × Bool) :=
  if Present entry then
    let pageEntry := word m (tableOf entry + 4 * tableIndex virt)
    if Present pageEntry then some (tableOf pageEntry, writable entry && writable pageEntry)
    else none
  else none

/-- The two-level walk: the frame's address, and whether it may be written. -/
def translate (m : ByteMemory) (directory virt : Nat) : Option (Nat × Bool) :=
  pageAt m (word m (directory + 4 * dirIndex virt)) virt

/-- What `pmm_alloc_frame` leaves in the directory when no frame is left. -/
def lostEntry : Nat := 0xFFFFFFFF

theorem tableOf_lost : tableOf lostEntry = 0xFFFFF000 := by decide

/-- The zero entry leads nowhere. -/
theorem pageAt_zero (m : ByteMemory) (virt : Nat) : pageAt m 0 virt = none := if_neg (by decide)

/-- A translation depends on the entry of its table only. -/
theorem pageAt_congr {m m' : ByteMemory} {entry virt : Nat}
    (h : word m' (tableOf entry + 4 * tableIndex virt) =
      word m (tableOf entry + 4 * tableIndex virt)) :
    pageAt m' entry virt = pageAt m entry virt := by
  unfold pageAt
  rw [h]

/-! ## Frames of memory -/

/-- The 4096 bytes from an address on are the same. -/
def FrameKept (m m' : ByteMemory) (r : Nat) : Prop := ∀ i < 4096, m' (r + i) = m (r + i)

section

variable {m m' : ByteMemory} {r r' a v i j f : Nat} {val : BitVec 8}

theorem FrameKept.refl (m : ByteMemory) (r : Nat) : FrameKept m m r := fun _ _ => rfl

theorem FrameKept.trans {m'' : ByteMemory} (h : FrameKept m m' r) (h' : FrameKept m' m'' r) :
    FrameKept m m'' r := by
  intro i hi
  rw [h' i hi, h i hi]

theorem FrameKept.word (h : FrameKept m m' r) (hr : r + 4096 ≤ 4294967296) (hi : i < 1024) :
    word m' (r + 4 * i) = word m (r + 4 * i) := by
  refine word_congr fun k hk => ?_
  rw [byteAddr_of_lt (by omega), Nat.add_assoc]
  exact h _ (by omega)

/-- A word in another frame. -/
theorem frameKept_setWord (hr : r + 4096 ≤ 4294967296) (ha : a + 4 ≤ 4294967296)
    (hout : a + 4 ≤ r ∨ r + 4096 ≤ a) : FrameKept m (setWord m a v) r := by
  intro i hi
  refine setWord_of_ne fun k hk => ?_
  rw [byteAddr_of_lt (by omega)]
  omega

theorem memset_of_ne {n b : Nat} (h : ∀ k < n, b ≠ byteAddr a k) : memset m a val n b = m b := by
  induction n with
  | zero => rfl
  | succ n ih =>
    rw [memset, Function.update_of_ne (h n (by omega))]
    exact ih fun k hk => h k (by omega)

theorem memset_byteAddr {n : Nat} (ha : a + n ≤ 4294967296) (hi : i < n) :
    memset m a val n (a + i) = val := by
  induction n with
  | zero => omega
  | succ n ih =>
    rw [memset, byteAddr_of_lt (by omega)]
    by_cases hn : i = n
    · rw [hn, Function.update_self]
    · rw [Function.update_of_ne (by omega)]
      exact ih (by omega) (by omega)

/-- Another frame is filled. -/
theorem frameKept_memset (hr : r + 4096 ≤ 4294967296) (hr' : r' + 4096 ≤ 4294967296)
    (hout : r' + 4096 ≤ r ∨ r + 4096 ≤ r') : FrameKept m (memset m r' val 4096) r := by
  intro i hi
  refine memset_of_ne fun k hk => ?_
  rw [byteAddr_of_lt (by omega)]
  omega

/-- Filling from the last address on wraps around to frame 0. -/
theorem frameKept_memset_lost (hr : r + 4096 < 4294967296) (hout : 4096 ≤ r) :
    FrameKept m (memset m lostEntry val 4096) r := by
  intro i hi
  refine memset_of_ne fun k hk => ?_
  unfold byteAddr lostEntry
  omega

/-- A frame of zeros has zero words. -/
theorem word_memset (hr : r + 4096 ≤ 4294967296) (hi : i < 1024) :
    word (memset m r 0 4096) (r + 4 * i) = 0 := by
  have hzero : ∀ k < 4, memset m r 0 4096 (byteAddr (r + 4 * i) k) = 0 := by
    intro k hk
    rw [byteAddr_of_lt (by omega), Nat.add_assoc]
    exact memset_byteAddr hr (by omega)
  unfold ByteMemory.word
  rw [hzero 0 (by omega), hzero 1 (by omega), hzero 2 (by omega), hzero 3 (by omega)]
  rfl

/-- Another entry of the same table. -/
theorem word_setWord_ne (hr : r + 4096 ≤ 4294967296) (hi : i < 1024) (hj : j < 1024)
    (hne : i ≠ j) : word (setWord m (r + 4 * j) v) (r + 4 * i) = word m (r + 4 * i) := by
  refine word_congr fun k hk => setWord_of_ne fun l hl => ?_
  rw [byteAddr_of_lt (by omega), byteAddr_of_lt (by omega)]
  omega

end

/-! ## The invariant -/

/-- The directory and its tables are distinct frames of the vmm. -/
structure PageTables (h : Heap) (p : Paging) : Prop where
  directory : p.directory ∈ p.obtained
  frames : ∀ r ∈ p.obtained, ∃ f < maxFrames, r = f * 4096 ∧ bitAt h.bitmap f = true
  entries : ∀ i < 1024, dirEntry h p i = 0 ∨ dirEntry h p i = lostEntry ∨
    ∃ r ∈ p.obtained, r ≠ p.directory ∧ dirEntry h p i = r + 3
  distinct : ∀ i < 1024, ∀ j < 1024, Present (dirEntry h p i) → dirEntry h p i ≠ lostEntry →
    dirEntry h p i = dirEntry h p j → i = j

section

variable {h h' : Heap} {p p' : Paging} {r i j v virt phys w : Nat}

/-- The directory has an entry for every address. -/
theorem dirIndex_lt (hvirt : virt < 4294967296) : dirIndex virt < 1024 := by
  unfold dirIndex
  omega

theorem tableIndex_lt (virt : Nat) : tableIndex virt < 1024 := Nat.mod_lt _ (by decide)

/-- Pages with the same two indices are the same page. -/
theorem page_eq (hdir : dirIndex w = dirIndex virt) (htable : tableIndex w = tableIndex virt) :
    w / 4096 = virt / 4096 := by
  unfold dirIndex at hdir
  unfold tableIndex at htable
  omega

namespace PageTables

theorem lt (ht : PageTables h p) (hr : r ∈ p.obtained) : r + 4096 ≤ 134217728 := by
  obtain ⟨f, hf, rfl, -⟩ := ht.frames r hr
  unfold maxFrames at hf
  omega

/-- Two frames of the vmm are one, or lie apart. -/
theorem apart (ht : PageTables h p) {r' : Nat} (hr : r ∈ p.obtained) (hr' : r' ∈ p.obtained)
    (hne : r ≠ r') : r + 4096 ≤ r' ∨ r' + 4096 ≤ r := by
  obtain ⟨f, -, rfl, -⟩ := ht.frames r hr
  obtain ⟨g, -, rfl, -⟩ := ht.frames r' hr'
  omega

theorem present_table (ht : PageTables h p) (hr : r ∈ p.obtained) : Present (r + 3) := by
  obtain ⟨f, -, rfl, -⟩ := ht.frames r hr
  unfold Present
  omega

theorem tableOf_table (ht : PageTables h p) (hr : r ∈ p.obtained) : tableOf (r + 3) = r := by
  obtain ⟨f, -, rfl, -⟩ := ht.frames r hr
  exact tableOf_present f

/-- The invariant is about the directory's entries and the frames in use. -/
theorem of_entries (ht : PageTables h p) (hdir : p'.directory = p.directory)
    (hob : p'.obtained = p.obtained) (hentry : ∀ i < 1024, dirEntry h' p' i = dirEntry h p i)
    (hbits : ∀ r ∈ p.obtained, bitAt h.bitmap (r / 4096) = true →
      bitAt h'.bitmap (r / 4096) = true) : PageTables h' p' := by
  refine ⟨by rw [hdir, hob]; exact ht.directory, ?_, ?_, ?_⟩
  · intro r hr
    rw [hob] at hr
    obtain ⟨f, hf, rfl, hbit⟩ := ht.frames r hr
    refine ⟨f, hf, rfl, ?_⟩
    have hkeep := hbits _ hr
    rw [Nat.mul_div_cancel _ (by decide)] at hkeep
    exact hkeep hbit
  · intro i hi
    rw [hentry i hi, hdir, hob]
    exact ht.entries i hi
  · intro i hi j hj
    rw [hentry i hi, hentry j hj]
    exact ht.distinct i hi j hj

/-- Whoever leaves the frames of the vmm alone keeps its tables. -/
theorem kept (ht : PageTables h p) (hdir : p'.directory = p.directory)
    (hob : p'.obtained = p.obtained) (hmem : ∀ r ∈ p.obtained, FrameKept h.mem h'.mem r)
    (hbits : ∀ r ∈ p.obtained, bitAt h.bitmap (r / 4096) = true →
      bitAt h'.bitmap (r / 4096) = true) : PageTables h' p' := by
  refine ht.of_entries hdir hob (fun i hi => ?_) hbits
  have hlt := ht.lt ht.directory
  unfold dirEntry
  rw [hdir]
  exact (hmem _ ht.directory).word (by omega) hi

/-- A store into a table leaves the directory alone. -/
theorem dirEntry_store (ht : PageTables h p) (hr : r ∈ p.obtained) (hne : r ≠ p.directory)
    (hj : j < 1024) (hi : i < 1024) :
    word (setWord h.mem (r + 4 * j) v) (p.directory + 4 * i) = dirEntry h p i := by
  have hlt := ht.lt hr
  have hdirlt := ht.lt ht.directory
  refine FrameKept.word (frameKept_setWord (by omega) (by omega) ?_) (by omega) hi
  rcases ht.apart hr ht.directory hne with happ | happ <;> omega

/-- A store to an entry of a table keeps the tables. -/
theorem store (ht : PageTables h p) (hr : r ∈ p.obtained) (hne : r ≠ p.directory)
    (hj : j < 1024) (v : Nat) :
    PageTables (storeEntry h p (r + 4 * j) v).1 (storeEntry h p (r + 4 * j) v).2 :=
  ht.of_entries rfl rfl (fun _ hi => ht.dirEntry_store hr hne hj hi) fun _ _ hbit => hbit

/-- The walk of a page whose region has a table. -/
theorem translate_store (ht : PageTables h p) (hr : r ∈ p.obtained) (hne : r ≠ p.directory)
    (hvirt : virt < 4294967296) (hentry : dirEntry h p (dirIndex virt) = r + 3)
    (hv : v < 4294967296) :
    translate (setWord h.mem (r + 4 * tableIndex virt) v) p.directory virt =
      if Present v then some (tableOf v, writable v) else none := by
  have hwrite : writable (r + 3) = true := by
    obtain ⟨f, -, rfl, -⟩ := ht.frames r hr
    unfold writable
    rw [decide_eq_true_eq]
    omega
  rw [translate, ht.dirEntry_store hr hne (tableIndex_lt _) (dirIndex_lt hvirt), hentry, pageAt,
    if_pos (ht.present_table hr)]
  simp only [ht.tableOf_table hr, word_setWord hv, hwrite, Bool.true_and]

/-- The walks of the other pages. -/
theorem translate_store_ne (ht : PageTables h p) (hr : r ∈ p.obtained) (hne : r ≠ p.directory)
    (hvirt : virt < 4294967296) (hentry : dirEntry h p (dirIndex virt) = r + 3)
    (hw : w < 4294967296) (hpage : w / 4096 ≠ virt / 4096) :
    translate (setWord h.mem (r + 4 * tableIndex virt) v) p.directory w =
      translate h.mem p.directory w := by
  have hlt := ht.lt hr
  have htw := tableIndex_lt w
  have htv := tableIndex_lt virt
  rw [translate, translate, ht.dirEntry_store hr hne htv (dirIndex_lt hw)]
  change pageAt _ (dirEntry h p (dirIndex w)) w = pageAt _ (dirEntry h p (dirIndex w)) w
  -- the page hangs on no table, on a lost one, or on a table in a frame
  rcases ht.entries _ (dirIndex_lt hw) with hzero | hlost | ⟨r', hr', -, hentry'⟩
  · rw [hzero, pageAt_zero, pageAt_zero]
  · -- a lost entry leads to the last page of memory
    rw [hlost]
    refine pageAt_congr ((frameKept_setWord (by decide) (by omega) (.inl ?_)).word (by decide) htw)
    rw [tableOf_lost]
    omega
  · rw [hentry']
    refine pageAt_congr ?_
    rw [ht.tableOf_table hr']
    have hlt' := ht.lt hr'
    by_cases hsame : r' = r
    · -- one table serves one region only, so the page has another index in it
      subst hsame
      have hdir : dirIndex w = dirIndex virt := by
        refine ht.distinct _ (dirIndex_lt hw) _ (dirIndex_lt hvirt) ?_ ?_
          (hentry'.trans hentry.symm)
        · rw [hentry']
          exact ht.present_table hr'
        · rw [hentry']
          unfold lostEntry
          omega
      exact word_setWord_ne (by omega) htw htv fun htable => hpage (page_eq hdir htable)
    · refine (frameKept_setWord (by omega) (by omega) ?_).word (by omega) htw
      rcases ht.apart hr hr' (Ne.symm hsame) with happ | happ <;> omega

/-- What keeps the tables and the entry keeps the walk. -/
theorem translate_kept (ht : PageTables h p) {m' : ByteMemory} (hw : w < 4294967296)
    (hentry : word m' (p.directory + 4 * dirIndex w) = dirEntry h p (dirIndex w))
    (hmem : ∀ r ∈ p.obtained, r ≠ p.directory → FrameKept h.mem m' r)
    (hlast : FrameKept h.mem m' 0xFFFFF000) :
    translate m' p.directory w = translate h.mem p.directory w := by
  have htw := tableIndex_lt w
  rw [translate, translate, hentry]
  change _ = pageAt _ (dirEntry h p (dirIndex w)) w
  rcases ht.entries _ (dirIndex_lt hw) with hzero | hlost | ⟨r, hr, hne, hentry'⟩
  · rw [hzero, pageAt_zero, pageAt_zero]
  · rw [hlost]
    exact pageAt_congr (hlast.word (by decide) htw)
  · rw [hentry']
    refine pageAt_congr ?_
    rw [ht.tableOf_table hr]
    have hlt := ht.lt hr
    exact (hmem r hr hne).word (by omega) htw

end PageTables

/-! ## A new table -/

/-- The first part of `vmm_map_page`: the region gets a table. -/
def ensureTable (h : Heap) (p : Paging) (virt : Nat) : Except PmmStop (Heap × Paging) :=
  let entry := p.directory + 4 * dirIndex virt
  if word h.mem entry % 2 = 0 then do
    let (newTable, bitmap) ← pmmAllocFrame h.bitmap
    let h := { h with mem := memset h.mem newTable.toNat 0 4096, bitmap }
    pure (storeEntry h (p.obtain newTable) entry (newTable.toNat ||| pagePresentRw))
  else pure (h, p)

/-- `vmm_map_page` in two parts: the table, and the entry in it. -/
theorem vmmMapPage_eq : vmmMapPage h p virt phys = do
    let (h', p') ← ensureTable h p virt
    return storeEntry h' p'
      (tableOf (word h'.mem (p.directory + 4 * dirIndex virt)) + 4 * tableIndex virt)
      (phys ||| pagePresentRw) := by
  unfold vmmMapPage ensureTable
  by_cases hpresent : word h.mem (p.directory + 4 * dirIndex virt) % 2 = 0
  · simp only [if_pos hpresent]
    cases pmmAllocFrame h.bitmap with
    | error e => rfl
    | ok r => rfl
  · simp only [if_neg hpresent]

/-- The memory and the frames once the region has the table at `r`. -/
def grown (h : Heap) (p : Paging) (virt r : Nat) (bitmap : Bitmap) : Heap × Paging :=
  storeEntry { h with mem := memset h.mem r 0 4096, bitmap } { p with obtained := r :: p.obtained }
    (p.directory + 4 * dirIndex virt) (r + 3)

@[simp] theorem grown_directory (h : Heap) (p : Paging) (virt r : Nat) (b : Bitmap) :
    (grown h p virt r b).2.directory = p.directory := rfl

@[simp] theorem grown_obtained (h : Heap) (p : Paging) (virt r : Nat) (b : Bitmap) :
    (grown h p virt r b).2.obtained = r :: p.obtained := rfl

@[simp] theorem grown_bitmap (h : Heap) (p : Paging) (virt r : Nat) (b : Bitmap) :
    (grown h p virt r b).1.bitmap = b := rfl

/-- The memory when no frame was left. -/
def lost (h : Heap) (p : Paging) (virt : Nat) : Heap × Paging :=
  storeEntry { h with mem := memset h.mem lostEntry 0 4096 } p
    (p.directory + 4 * dirIndex virt) lostEntry

/-- There is a table, a frame becomes one, or no frame is left. -/
theorem ensureTable_cases (h : Heap) (p : Paging) (virt : Nat) :
    (Present (dirEntry h p (dirIndex virt)) ∧ ensureTable h p virt = .ok (h, p)) ∨
    (¬ Present (dirEntry h p (dirIndex virt)) ∧ ∃ f b', f < maxFrames ∧
      bitAt h.bitmap f = false ∧ (∀ g, bitAt b' g = (decide (g = f) || bitAt h.bitmap g)) ∧
      ensureTable h p virt = .ok (grown h p virt (f * 4096) b')) ∨
    (¬ Present (dirEntry h p (dirIndex virt)) ∧ (∀ f < maxFrames, bitAt h.bitmap f = true) ∧
      ensureTable h p virt = .ok (lost h p virt)) := by
  unfold ensureTable
  by_cases hpresent : word h.mem (p.directory + 4 * dirIndex virt) % 2 = 0
  · have habsent : ¬ Present (dirEntry h p (dirIndex virt)) := by
      unfold Present dirEntry
      omega
    right
    simp only [if_pos hpresent]
    rcases allocFrameFrom_spec h.bitmap maxFrames 0 (Nat.zero_add _) with
      ⟨f, b', -, hf, hfree, -, halloc, hbits⟩ | ⟨hused, halloc⟩
    · refine .inl ⟨habsent, f, b', hf, hfree, hbits, ?_⟩
      rw [pmmAllocFrame, halloc]
      simp only [ok_bind, frameAddr_toNat hf, or_pagePresentRw, Paging.obtain,
        if_neg (frameAddr_ne_noFrame hf)]
      rfl
    · refine .inr ⟨habsent, fun f hf => hused f (Nat.zero_le f) hf, ?_⟩
      rw [pmmAllocFrame, halloc]
      simp only [ok_bind, Paging.obtain, if_pos]
      rfl
  · refine .inl ⟨?_, by rw [if_neg hpresent]; rfl⟩
    unfold Present dirEntry
    omega

namespace PageTables

variable {f : Nat} {b' : Bitmap}

/-- A free frame is none of the vmm's. -/
theorem not_obtained (ht : PageTables h p) (hfree : bitAt h.bitmap f = false) :
    f * 4096 ∉ p.obtained := by
  intro hmem
  obtain ⟨g, -, heq, hbit⟩ := ht.frames _ hmem
  obtain rfl : f = g := by omega
  rw [hfree] at hbit
  cases hbit

theorem not_obtained_apart (ht : PageTables h p) (hfree : bitAt h.bitmap f = false)
    (hr : r ∈ p.obtained) : r + 4096 ≤ f * 4096 ∨ f * 4096 + 4096 ≤ r := by
  have hne : r ≠ f * 4096 := fun heq => ht.not_obtained hfree (heq ▸ hr)
  obtain ⟨g, -, rfl, -⟩ := ht.frames r hr
  omega

section Grown

variable (ht : PageTables h p) (hf : f < maxFrames) (hfree : bitAt h.bitmap f = false)
  (hvirt : virt < 4294967296)
include ht hf hfree hvirt

/-- The directory has one entry more. -/
theorem grown_entry (hi : i < 1024) :
    word (grown h p virt (f * 4096) b').1.mem (p.directory + 4 * i) =
      if i = dirIndex virt then f * 4096 + 3 else dirEntry h p i := by
  have hlt := ht.lt ht.directory
  unfold maxFrames at hf
  show word (setWord (memset h.mem (f * 4096) 0 4096) (p.directory + 4 * dirIndex virt)
    (f * 4096 + 3)) (p.directory + 4 * i) = _
  by_cases heq : i = dirIndex virt
  · rw [if_pos heq, heq, word_setWord (by omega)]
  · rw [if_neg heq, word_setWord_ne (by omega) hi (dirIndex_lt hvirt) heq]
    refine (frameKept_memset (by omega) (by omega) ?_).word (by omega) hi
    exact (ht.not_obtained_apart hfree ht.directory).symm

omit hfree in
/-- The tables that were there, and the last page of memory, stay as they are. -/
theorem grown_kept (hlt : r + 4096 ≤ 4294967296)
    (hout : f * 4096 + 4096 ≤ r ∨ r + 4096 ≤ f * 4096)
    (hdir : p.directory + 4096 ≤ r ∨ r + 4096 ≤ p.directory) :
    FrameKept h.mem (grown h p virt (f * 4096) b').1.mem r := by
  have hdirlt := ht.lt ht.directory
  have hindex := dirIndex_lt hvirt
  unfold maxFrames at hf
  have hfill : FrameKept h.mem (memset h.mem (f * 4096) 0 4096) r :=
    frameKept_memset hlt (by omega) hout
  exact hfill.trans (frameKept_setWord hlt (by omega) (by omega))

/-- The new table is empty. -/
theorem grown_table (hj : j < 1024) :
    word (grown h p virt (f * 4096) b').1.mem (f * 4096 + 4 * j) = 0 := by
  have hdirlt := ht.lt ht.directory
  have hindex := dirIndex_lt hvirt
  have hapart := ht.not_obtained_apart hfree ht.directory
  unfold maxFrames at hf
  have hkept : FrameKept (memset h.mem (f * 4096) 0 4096)
      (grown h p virt (f * 4096) b').1.mem (f * 4096) :=
    frameKept_setWord (by omega) (by omega) (by omega)
  rw [hkept.word (by omega) hj]
  exact word_memset (by omega) hj

theorem grown_pageTables (hbits : ∀ g, bitAt b' g = (decide (g = f) || bitAt h.bitmap g)) :
    PageTables (grown h p virt (f * 4096) b').1 (grown h p virt (f * 4096) b').2 := by
  have hdirne : f * 4096 ≠ p.directory := fun heq => ht.not_obtained hfree (heq ▸ ht.directory)
  -- the one directory entry that changes is the one of `virt`
  have hentry : ∀ i < 1024,
      dirEntry (grown h p virt (f * 4096) b').1 (grown h p virt (f * 4096) b').2 i =
        if i = dirIndex virt then f * 4096 + 3 else dirEntry h p i := by
    intro i hi
    rw [dirEntry, grown_directory]
    exact ht.grown_entry hf hfree hvirt hi
  refine ⟨?_, ?_, ?_, ?_⟩
  · rw [grown_directory, grown_obtained]
    exact List.mem_cons_of_mem _ ht.directory
  · intro r hr
    rw [grown_bitmap]
    rw [grown_obtained] at hr
    rcases List.mem_cons.mp hr with rfl | hr
    · exact ⟨f, hf, rfl, by simp [hbits]⟩
    · obtain ⟨g, hg, rfl, hbit⟩ := ht.frames r hr
      exact ⟨g, hg, rfl, by simp [hbits, hbit]⟩
  · intro i hi
    rw [hentry i hi, grown_directory, grown_obtained]
    by_cases heq : i = dirIndex virt
    · rw [if_pos heq]
      exact .inr (.inr ⟨f * 4096, List.mem_cons_self .., hdirne, rfl⟩)
    · rw [if_neg heq]
      rcases ht.entries i hi with hzero | hlost | ⟨r, hr, hne, hentry'⟩
      · exact .inl hzero
      · exact .inr (.inl hlost)
      · exact .inr (.inr ⟨r, List.mem_cons_of_mem _ hr, hne, hentry'⟩)
  · -- an old entry does not name the new frame
    have hold : ∀ i < 1024, dirEntry h p i ≠ f * 4096 + 3 := by
      intro i hi heq
      unfold maxFrames at hf
      rcases ht.entries i hi with hzero | hlost | ⟨r, hr, -, hentry'⟩
      · omega
      · unfold lostEntry at hlost
        omega
      · exact ht.not_obtained hfree (by rwa [show f * 4096 = r by omega])
    intro i hi j hj
    rw [hentry i hi, hentry j hj]
    intro hpresent hlost heq
    -- two entries that agree are both the new one, or both old
    by_cases hiv : i = dirIndex virt
    · by_cases hjv : j = dirIndex virt
      · rw [hiv, hjv]
      · rw [if_pos hiv, if_neg hjv] at heq
        exact absurd heq.symm (hold j hj)
    · by_cases hjv : j = dirIndex virt
      · rw [if_neg hiv, if_pos hjv] at heq
        exact absurd heq (hold i hi)
      · rw [if_neg hiv] at heq hpresent hlost
        rw [if_neg hjv] at heq
        exact ht.distinct i hi j hj hpresent hlost heq

/-- A new table changes no walk. -/
theorem translate_grown (habsent : ¬ Present (dirEntry h p (dirIndex virt)))
    (hw : w < 4294967296) :
    translate (grown h p virt (f * 4096) b').1.mem p.directory w =
      translate h.mem p.directory w := by
  by_cases heq : dirIndex w = dirIndex virt
  · have hbefore : translate h.mem p.directory w = none := by
      rw [translate, heq]
      exact if_neg habsent
    rw [hbefore, translate, ht.grown_entry hf hfree hvirt (dirIndex_lt hw), if_pos heq, pageAt,
      tableOf_present, ht.grown_table hf hfree hvirt (tableIndex_lt w)]
    simp [Present]
  · refine ht.translate_kept hw ?_ ?_ ?_
    · rw [ht.grown_entry hf hfree hvirt (dirIndex_lt hw), if_neg heq]
    · intro r hr hne
      have hlt := ht.lt hr
      refine ht.grown_kept hf hvirt (by omega) ?_ ?_
      · exact (ht.not_obtained_apart hfree hr).symm
      · exact ht.apart ht.directory hr (Ne.symm hne)
    · have hdirlt := ht.lt ht.directory
      have hf' := hf
      unfold maxFrames at hf'
      exact ht.grown_kept hf hvirt (by decide) (by omega) (by omega)

end Grown

end PageTables

/-! ## No frame left -/

namespace PageTables

/-- The frames of the vmm lie above frame 0 and below the last page of memory. -/
theorem above_zero (ht : PageTables h p) (hzero : 0 ∉ p.obtained) (hr : r ∈ p.obtained) :
    4096 ≤ r := by
  obtain ⟨f, -, rfl, -⟩ := ht.frames r hr
  have hf : f ≠ 0 := by
    rintro rfl
    exact hzero hr
  omega

/-- A store into frame 0, or into the last page, reaches no frame of the vmm. -/
theorem store_outside (ht : PageTables h p) (hzero : 0 ∉ p.obtained) {a : Nat}
    (ha : a + 4 ≤ 4096 ∨ (0xFFFFF000 ≤ a ∧ a + 4 ≤ 4294967296)) (v : Nat) :
    PageTables (storeEntry h p a v).1 (storeEntry h p a v).2 := by
  refine ht.kept rfl rfl (fun r hr => ?_) fun _ _ hbit => hbit
  have hlt := ht.lt hr
  have habove := ht.above_zero hzero hr
  exact frameKept_setWord (by omega) (by omega) (by omega)

@[simp] theorem lost_directory (h : Heap) (p : Paging) (virt : Nat) :
    (lost h p virt).2.directory = p.directory := rfl

@[simp] theorem lost_obtained (h : Heap) (p : Paging) (virt : Nat) :
    (lost h p virt).2.obtained = p.obtained := rfl

@[simp] theorem lost_bitmap (h : Heap) (p : Paging) (virt : Nat) :
    (lost h p virt).1.bitmap = h.bitmap := rfl

section Lost

variable (ht : PageTables h p) (hzero : 0 ∉ p.obtained) (hvirt : virt < 4294967296)
include ht hzero hvirt

/-- Without a frame the entry names a table at the end of the memory. -/
theorem lost_entry (hi : i < 1024) :
    word (lost h p virt).1.mem (p.directory + 4 * i) =
      if i = dirIndex virt then lostEntry else dirEntry h p i := by
  have hlt := ht.lt ht.directory
  have habove := ht.above_zero hzero ht.directory
  show word (setWord (memset h.mem lostEntry 0 4096) (p.directory + 4 * dirIndex virt) lostEntry)
    (p.directory + 4 * i) = _
  by_cases heq : i = dirIndex virt
  · rw [if_pos heq, heq, word_setWord (by decide)]
  · rw [if_neg heq, word_setWord_ne (by omega) hi (dirIndex_lt hvirt) heq]
    exact (frameKept_memset_lost (by omega) habove).word (by omega) hi

theorem lost_pageTables : PageTables (lost h p virt).1 (lost h p virt).2 := by
  -- the entry of `virt` is lost, and no other one changes
  have hentry : ∀ i < 1024, dirEntry (lost h p virt).1 (lost h p virt).2 i =
      if i = dirIndex virt then lostEntry else dirEntry h p i := by
    intro i hi
    rw [dirEntry, lost_directory]
    exact ht.lost_entry hzero hvirt hi
  refine ⟨?_, ?_, ?_, ?_⟩
  · rw [lost_directory, lost_obtained]
    exact ht.directory
  · rw [lost_obtained, lost_bitmap]
    exact ht.frames
  · intro i hi
    rw [hentry i hi, lost_directory, lost_obtained]
    by_cases heq : i = dirIndex virt
    · rw [if_pos heq]
      exact .inr (.inl rfl)
    · rw [if_neg heq]
      exact ht.entries i hi
  · intro i hi j hj
    rw [hentry i hi, hentry j hj]
    intro hpresent hnot heq
    by_cases hiv : i = dirIndex virt
    · rw [if_pos hiv] at hnot
      exact absurd rfl hnot
    · rw [if_neg hiv] at hpresent hnot heq
      by_cases hjv : j = dirIndex virt
      · rw [if_pos hjv] at heq
        exact absurd heq hnot
      · rw [if_neg hjv] at heq
        exact ht.distinct i hi j hj hpresent hnot heq

end Lost

end PageTables

/-! ## `vmm_init` -/

/-- Filling a table leaves the other frames alone. -/
theorem frameKept_identityTable {m : ByteMemory} {t n : Nat} (hn : n ≤ 1024)
    (hr : r + 4096 ≤ 4294967296) (ht : t + 4096 ≤ 4294967296)
    (hout : t + 4096 ≤ r ∨ r + 4096 ≤ t) : FrameKept m (identityTable m t n) r := by
  induction n with
  | zero => exact .refl m r
  | succ n ih =>
    exact (ih (by omega)).trans (frameKept_setWord hr (by omega) (by omega))

/-- The memory that `vmm_init` leaves, with its directory and its table. -/
def initialTables (m : ByteMemory) (directory table : Nat) : ByteMemory :=
  setWord (identityTable (memset m directory 0 4096) table 1024) directory (table + 3)

theorem initialTables_entry {m : ByteMemory} {d t : Nat} (hd : d + 4096 ≤ 4294967296)
    (ht : t + 4096 ≤ 4294967296) (hout : t + 4096 ≤ d ∨ d + 4096 ≤ t) (hi : i < 1024) :
    word (initialTables m d t) (d + 4 * i) = if i = 0 then t + 3 else 0 := by
  have hkept : FrameKept (memset m d 0 4096) (identityTable (memset m d 0 4096) t 1024) d :=
    frameKept_identityTable (Nat.le_refl _) hd ht hout
  unfold initialTables
  by_cases hi0 : i = 0
  · rw [if_pos hi0, hi0]
    exact word_setWord (by omega)
  · have hother := word_setWord_ne (m := identityTable (memset m d 0 4096) t 1024) (v := t + 3)
      hd hi (by decide : 0 < 1024) hi0
    rw [Nat.mul_zero, Nat.add_zero] at hother
    rw [if_neg hi0, hother, hkept.word hd hi]
    exact word_memset hd hi

/-- A directory with one table. -/
theorem PageTables.first {f g : Nat} {b : Bitmap} (hf : f < maxFrames) (hg : g < maxFrames)
    (hgf : g ≠ f) (hfused : bitAt b f = true) (hgused : bitAt b g = true)
    (hbitmap : h.bitmap = b) (hdir : p.directory = f * 4096)
    (hob : p.obtained = [g * 4096, f * 4096])
    (hentry : ∀ i < 1024, dirEntry h p i = if i = 0 then g * 4096 + 3 else 0) :
    PageTables h p := by
  refine ⟨?_, ?_, ?_, ?_⟩
  · rw [hdir, hob]
    exact List.mem_cons_of_mem _ (List.mem_singleton_self _)
  · intro r hr
    rw [hob] at hr
    rw [hbitmap]
    -- the two frames of `vmm_init`, the table and the directory
    rcases List.mem_cons.mp hr with rfl | hr
    · exact ⟨g, hg, rfl, hgused⟩
    · obtain rfl := List.mem_singleton.mp hr
      exact ⟨f, hf, rfl, hfused⟩
  · intro i hi
    rw [hentry i hi, hob, hdir]
    by_cases hi0 : i = 0
    · rw [if_pos hi0]
      exact .inr (.inr ⟨g * 4096, List.mem_cons_self .., by omega, rfl⟩)
    · exact .inl (if_neg hi0)
  · intro i hi j hj
    rw [hentry i hi, hentry j hj]
    intro hpresent _ heq
    by_cases hi0 : i = 0
    · by_cases hj0 : j = 0
      · rw [hi0, hj0]
      · rw [if_pos hi0, if_neg hj0] at heq
        cases heq
    · rw [if_neg hi0] at hpresent
      cases hpresent

/-- There are two frames left, for the directory and the first table. -/
def TwoFramesLeft (b : Bitmap) : Prop :=
  ∃ f g, f ≠ g ∧ f < maxFrames ∧ g < maxFrames ∧ bitAt b f = false ∧ bitAt b g = false

/-- Two allocations with two frames left. -/
theorem TwoFramesLeft.alloc {b : Bitmap} (hleft : TwoFramesLeft b) :
    ∃ f g b₁ b', f < maxFrames ∧ g < maxFrames ∧ bitAt b f = false ∧ bitAt b g = false ∧ g ≠ f ∧
      pmmAllocFrame b = .ok (frameAddr f, b₁) ∧ pmmAllocFrame b₁ = .ok (frameAddr g, b') ∧
      ∀ k, bitAt b' k = (decide (k = g) || (decide (k = f) || bitAt b k)) := by
  obtain ⟨x, y, hxy, hx, hy, hxfree, hyfree⟩ := hleft
  rcases allocFrameFrom_spec b maxFrames 0 (Nat.zero_add _) with
    ⟨f, b₁, -, hf, hffree, -, hdir, hbits⟩ | ⟨hused, -⟩
  swap
  · rw [hused x (Nat.zero_le x) hx] at hxfree
    cases hxfree
  rcases allocFrameFrom_spec b₁ maxFrames 0 (Nat.zero_add _) with
    ⟨g, b', -, hg, hgfree, -, htable, hbits'⟩ | ⟨hused, -⟩
  swap
  · -- only one of the two frames has been taken
    have husedx := hused x (Nat.zero_le x) hx
    have husedy := hused y (Nat.zero_le y) hy
    simp only [hbits, hxfree, Bool.or_false, decide_eq_true_eq] at husedx
    simp only [hbits, hyfree, Bool.or_false, decide_eq_true_eq] at husedy
    exact absurd (husedx.trans husedy.symm) hxy
  rw [hbits, Bool.or_eq_false_iff, decide_eq_false_iff_not] at hgfree
  refine ⟨f, g, b₁, b', hf, hg, hffree, hgfree.2, hgfree.1, hdir, htable, fun k => ?_⟩
  rw [hbits', hbits]

/-- With two frames left `vmm_init` makes a directory with a single table. -/
theorem vmmInit_spec (hob : p.obtained = []) (hleft : TwoFramesLeft h.bitmap) :
    ∃ h' p', vmmInit h p = .ok (h', p') ∧ PageTables h' p' ∧
      (∀ i < 1024, i ≠ 0 → dirEntry h' p' i = 0) ∧ Present (dirEntry h' p' 0) ∧
      dirEntry h' p' 0 ≠ lostEntry ∧
      (bitAt h.bitmap 0 = true → 0 ∉ p'.obtained ∧ bitAt h'.bitmap 0 = true) := by
  obtain ⟨f, g, b₁, b', hf, hg, hffree, hgfree, hgf, hdir, htable, hbits⟩ := hleft.alloc
  have hinit : vmmInit h p = .ok
      ({ h with mem := initialTables h.mem (f * 4096) (g * 4096), bitmap := b' },
        { p with directory := f * 4096, obtained := [g * 4096, f * 4096] }) := by
    unfold vmmInit
    rw [hdir, ok_bind]
    simp only
    rw [htable, ok_bind]
    simp only [Paging.obtain, if_neg (frameAddr_ne_noFrame hf), if_neg (frameAddr_ne_noFrame hg),
      frameAddr_toNat hf, frameAddr_toNat hg, or_pagePresentRw, hob]
    rfl
  refine ⟨_, _, hinit, ?_⟩
  have hentry : ∀ i < 1024, word (initialTables h.mem (f * 4096) (g * 4096)) (f * 4096 + 4 * i) =
      if i = 0 then g * 4096 + 3 else 0 := by
    intro i hi
    unfold maxFrames at hf hg
    exact initialTables_entry (by omega) (by omega) (by omega) hi
  unfold dirEntry
  simp only
  -- both tables are in memory: what is left is to read their entries
  refine ⟨?_, ?_, ?_, ?_, ?_⟩
  · exact .first hf hg hgf (by simp [hbits]) (by simp [hbits]) rfl rfl rfl hentry
  · intro i hi hi0
    rw [hentry i hi, if_neg hi0]
  · rw [hentry 0 (by decide), if_pos rfl]
    unfold Present
    omega
  · rw [hentry 0 (by decide), if_pos rfl]
    unfold maxFrames at hg
    unfold lostEntry
    omega
  · intro hzero
    have hf0 : f ≠ 0 := by
      rintro rfl
      rw [hzero] at hffree
      cases hffree
    have hg0 : g ≠ 0 := by
      rintro rfl
      rw [hzero] at hgfree
      cases hgfree
    constructor
    · intro hmem
      rcases List.mem_cons.mp hmem with heq | hmem
      · omega
      · have heq := List.mem_singleton.mp hmem
        omega
    · simp [hbits, hzero]

end

end Pelikan

end SystemsProjects

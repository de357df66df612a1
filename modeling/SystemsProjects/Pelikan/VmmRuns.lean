import SystemsProjects.Pelikan.Translation

/-!
# Runs of the vmm

`vmm_map_page` and `vmm_unmap_page` in any order behind `vmm_init`, in a kernel where the others
neither write to the frames that the vmm has obtained nor free them.

- `Orderly`: there is a frame for the table that a map needs, and only pages of regions with a
  table are unmapped.
- `vmm_translations`: in orderly runs each call changes the translation of its own page only, and
  the directory names distinct frames.
- `vmmUnmapPage_safe_iff`: in any run at all, unmapping a page is safe exactly where the region has
  a table that was obtained.

Two strengths of invariant are needed. `TablesWhole` is for orderly runs, in which each present
entry names a table; `TablesAbove` is for any runs, in which the directory may also name frame 0
or the last page. The results about unmapping use the weaker one: a store through such an entry
is not safe, and it is not into a table.
-/

namespace SystemsProjects

namespace Pelikan

open ByteMemory

/-- A call of the vmm, or what the others do meanwhile. -/
inductive VmmAction where
  | map (virt phys : Nat)
  | unmap (virt : Nat)
  | others

/-- The others keep off the frames of the vmm. Frame 0 is in use from the start, and nobody has
obtained it. -/
inductive VmmStep : Heap × Paging → VmmAction → Heap × Paging → Prop where
  | map {h : Heap} {p : Paging} {virt phys : Nat} {s' : Heap × Paging}
      (hvirt : virt < 4294967296) (hphys : phys < 4294967296)
      (hcall : vmmMapPage h p virt phys = .ok s') : VmmStep (h, p) (.map virt phys) s'
  | unmap {h : Heap} {p : Paging} {virt : Nat} (hvirt : virt < 4294967296) :
      VmmStep (h, p) (.unmap virt) (vmmUnmapPage h p virt)
  | others {h h' : Heap} {p : Paging} (hmem : ∀ r ∈ p.obtained, FrameKept h.mem h'.mem r)
      (hbits : ∀ r ∈ 0 :: p.obtained, bitAt h.bitmap (r / 4096) = true →
        bitAt h'.bitmap (r / 4096) = true) : VmmStep (h, p) .others (h', p)

/-- The runs behind a `vmm_init` that has found such a bitmap. -/
def vmmSystem (Booted : Bitmap → Prop) : TransitionSystem (Heap × Paging) VmmAction where
  Initial s := ∃ h p, p.obtained = [] ∧ Booted h.bitmap ∧ vmmInit h p = .ok s
  Step := VmmStep

/-- The region of the page has a table, or there is a frame for one. -/
def TableOrFrame (h : Heap) (p : Paging) (virt : Nat) : Prop :=
  Present (dirEntry h p (dirIndex virt)) ∨ ∃ f < maxFrames, bitAt h.bitmap f = false

/-- Frames are not exhausted, and pages are unmapped where there is a table. -/
def Orderly (s : Heap × Paging) : VmmAction → Prop
  | .map virt _ => TableOrFrame s.1 s.2 virt
  | .unmap virt => Present (dirEntry s.1 s.2 (dirIndex virt))
  | .others => True

/-- Two frames are left, and frame 0 is not free: `pmm_init` has kept the first megabyte. -/
def BootedAbove (b : Bitmap) : Prop := TwoFramesLeft b ∧ bitAt b 0 = true

section

variable {h h' : Heap} {p p' : Paging} {r i virt phys w : Nat} {s : Heap × Paging}

/-! ## One call -/

namespace PageTables

/-- The entry of a region with a table. -/
theorem table_of_present (ht : PageTables h p) (hi : i < 1024)
    (hpresent : Present (dirEntry h p i)) (hlost : dirEntry h p i ≠ lostEntry) :
    ∃ r ∈ p.obtained, r ≠ p.directory ∧ dirEntry h p i = r + 3 := by
  rcases ht.entries i hi with hzero | hlost' | htable
  · rw [hzero] at hpresent
    cases hpresent
  · exact absurd hlost' hlost
  · exact htable

/-- With a table or a frame for one, the call stores the page's entry in a table of its region. -/
theorem mapPage (ht : PageTables h p) (hvirt : virt < 4294967296)
    (hlost : ∀ i < 1024, dirEntry h p i ≠ lostEntry) (hleft : TableOrFrame h p virt)
    (phys : Nat) :
    ∃ h₁ p₁, PageTables h₁ p₁ ∧ p₁.directory = p.directory ∧
      (∀ i < 1024, dirEntry h₁ p₁ i ≠ lostEntry) ∧
      (∀ w < 4294967296, translate h₁.mem p.directory w = translate h.mem p.directory w) ∧
      ∃ r ∈ p₁.obtained, r ≠ p₁.directory ∧ dirEntry h₁ p₁ (dirIndex virt) = r + 3 ∧
        vmmMapPage h p virt phys =
          .ok (storeEntry h₁ p₁ (r + 4 * tableIndex virt) (phys ||| pagePresentRw)) := by
  have hindex := dirIndex_lt hvirt
  rw [vmmMapPage_eq]
  rcases ensureTable_cases h p virt with ⟨hpresent, hensure⟩ |
    ⟨habsent, f, b', hf, hfree, hbits, hensure⟩ | ⟨habsent, hused, -⟩
  · obtain ⟨r, hr, hne, hentry⟩ := ht.table_of_present hindex hpresent (hlost _ hindex)
    -- the table is there: only its entry is written
    refine ⟨h, p, ht, rfl, hlost, fun _ _ => rfl, r, hr, hne, hentry, ?_⟩
    rw [hensure, ok_bind]
    simp only
    rw [← dirEntry, hentry, ht.tableOf_table hr]
    rfl
  · -- a frame becomes the table, and every translation stays
    have ht' := ht.grown_pageTables hf hfree hvirt hbits
    have hentry : word (grown h p virt (f * 4096) b').1.mem (p.directory + 4 * dirIndex virt) =
        f * 4096 + 3 := by
      rw [ht.grown_entry hf hfree hvirt hindex, if_pos rfl]
    refine ⟨_, _, ht', rfl, ?_, ?_, f * 4096, List.mem_cons_self .., ?_, hentry, ?_⟩
    · intro i hi
      rw [dirEntry, grown_directory, ht.grown_entry hf hfree hvirt hi]
      by_cases heq : i = dirIndex virt
      · rw [if_pos heq]
        unfold maxFrames at hf
        unfold lostEntry
        omega
      · rw [if_neg heq]
        exact hlost i hi
    · intro w hw
      exact ht.translate_grown hf hfree hvirt habsent hw
    · rw [grown_directory]
      exact fun heq => ht.not_obtained hfree (heq ▸ ht.directory)
    · rw [hensure, ok_bind]
      simp only
      rw [hentry, tableOf_present]
      rfl
  · -- no table and no frame
    rcases hleft with hpresent | ⟨f, hf, hfree⟩
    · exact absurd hpresent habsent
    · rw [hused f hf] at hfree
      cases hfree

/-- An entry is stored through whatever the directory names, as long as frame 0 is not ours. -/
theorem store_through (ht : PageTables h p) (hzero : 0 ∉ p.obtained) (hi : i < 1024)
    (virt v : Nat) :
    PageTables (storeEntry h p (tableOf (dirEntry h p i) + 4 * tableIndex virt) v).1
      (storeEntry h p (tableOf (dirEntry h p i) + 4 * tableIndex virt) v).2 := by
  have htable := tableIndex_lt virt
  rcases ht.entries i hi with hnone | hlost | ⟨r, hr, hne, hentry⟩
  · rw [hnone, show tableOf 0 = 0 from rfl]
    exact ht.store_outside hzero (.inl (by omega)) v
  · rw [hlost, tableOf_lost]
    exact ht.store_outside hzero (.inr (by omega)) v
  · rw [hentry, ht.tableOf_table hr]
    exact ht.store hr hne htable v

end PageTables

/-- What all runs keep behind a `vmm_init` that has not obtained frame 0. -/
structure TablesAbove (h : Heap) (p : Paging) : Prop where
  tables : PageTables h p
  zero : 0 ∉ p.obtained
  used : bitAt h.bitmap 0 = true

namespace TablesAbove

/-- The first part of `vmm_map_page`, with or without a frame. -/
theorem ensureTable (ht : TablesAbove h p) (hvirt : virt < 4294967296) :
    ∃ h' p', Pelikan.ensureTable h p virt = .ok (h', p') ∧ p'.directory = p.directory ∧
      TablesAbove h' p' := by
  rcases ensureTable_cases h p virt with ⟨-, hensure⟩ |
    ⟨-, f, b', hf, hfree, hbits, hensure⟩ | ⟨-, -, hensure⟩
  · exact ⟨h, p, hensure, rfl, ht⟩
  · refine ⟨(grown h p virt (f * 4096) b').1, (grown h p virt (f * 4096) b').2, hensure, rfl,
      ht.tables.grown_pageTables hf hfree hvirt hbits, ?_, ?_⟩
    · rw [grown_obtained, List.mem_cons, not_or]
      refine ⟨fun heq => ?_, ht.zero⟩
      obtain rfl : f = 0 := by omega
      rw [ht.used] at hfree
      cases hfree
    · rw [grown_bitmap, hbits, ht.used, Bool.or_true]
  · exact ⟨_, _, hensure, rfl, ht.tables.lost_pageTables ht.zero hvirt, ht.zero, ht.used⟩

theorem mapPage (ht : TablesAbove h p) (hvirt : virt < 4294967296)
    (hcall : vmmMapPage h p virt phys = .ok (h', p')) : TablesAbove h' p' := by
  obtain ⟨h₁, p₁, hensure, hdir, ht₁⟩ := ht.ensureTable hvirt
  rw [vmmMapPage_eq, hensure, ok_bind, ← hdir] at hcall
  obtain ⟨rfl, rfl⟩ := Prod.mk.inj (Except.ok.inj hcall)
  exact ⟨ht₁.tables.store_through ht₁.zero (dirIndex_lt hvirt) virt _, ht₁.zero, ht₁.used⟩

theorem unmapPage (ht : TablesAbove h p) (hvirt : virt < 4294967296) :
    TablesAbove (vmmUnmapPage h p virt).1 (vmmUnmapPage h p virt).2 :=
  ⟨ht.tables.store_through ht.zero (dirIndex_lt hvirt) virt 0, ht.zero, ht.used⟩

theorem others (ht : TablesAbove h p) (hmem : ∀ r ∈ p.obtained, FrameKept h.mem h'.mem r)
    (hbits : ∀ r ∈ 0 :: p.obtained, bitAt h.bitmap (r / 4096) = true →
      bitAt h'.bitmap (r / 4096) = true) : TablesAbove h' p := by
  refine ⟨ht.tables.kept rfl rfl hmem fun r hr => hbits r (List.mem_cons_of_mem _ hr), ht.zero, ?_⟩
  exact hbits 0 (List.mem_cons_self ..) ht.used

end TablesAbove

/-! ## Runs -/

theorem reachable_tablesAbove (hreach : (vmmSystem BootedAbove).Reachable s) :
    TablesAbove s.1 s.2 := by
  refine hreach.invariant (P := fun s => TablesAbove s.1 s.2) ?_ ?_
  · rintro s ⟨h, p, hob, ⟨hleft, hused⟩, hinit⟩
    obtain ⟨h', p', hinit', ht, -, -, -, habove⟩ := vmmInit_spec hob hleft
    rw [hinit] at hinit'
    obtain rfl := Except.ok.inj hinit'
    exact ⟨ht, (habove hused).1, (habove hused).2⟩
  · intro s a s' _ ht hstep
    cases hstep with
    | map hvirt hphys hcall => exact ht.mapPage hvirt hcall
    | unmap hvirt => exact ht.unmapPage hvirt
    | others hmem hbits => exact ht.others hmem hbits

/-- What orderly runs keep. -/
structure TablesWhole (h : Heap) (p : Paging) : Prop where
  tables : PageTables h p
  whole : ∀ i < 1024, dirEntry h p i ≠ lostEntry

/-- A store into a table keeps the directory's entries. -/
theorem TablesWhole.store (ht : TablesWhole h p) (hr : r ∈ p.obtained) (hne : r ≠ p.directory)
    (virt v : Nat) :
    TablesWhole (storeEntry h p (r + 4 * tableIndex virt) v).1
      (storeEntry h p (r + 4 * tableIndex virt) v).2 := by
  refine ⟨ht.tables.store hr hne (tableIndex_lt _) v, fun i hi => ?_⟩
  rw [dirEntry]
  exact (ht.tables.dirEntry_store hr hne (tableIndex_lt _) hi).trans_ne (ht.whole i hi)

theorem reachable_tablesWhole (hreach : ((vmmSystem TwoFramesLeft).restrict Orderly).Reachable s) :
    TablesWhole s.1 s.2 := by
  refine hreach.invariant (P := fun s => TablesWhole s.1 s.2) ?_ ?_
  · rintro s ⟨h, p, hob, hleft, hinit⟩
    obtain ⟨h', p', hinit', ht, hnone, -, hfirst, -⟩ := vmmInit_spec hob hleft
    rw [hinit] at hinit'
    obtain rfl := Except.ok.inj hinit'
    refine ⟨ht, fun i hi => ?_⟩
    by_cases hi0 : i = 0
    · rwa [hi0]
    · rw [hnone i hi hi0]
      decide
  · rintro s a s' _ ht ⟨horderly, hstep⟩
    cases hstep with
    | map hvirt hphys hcall =>
      -- the map found a table or made one, and has written one entry of it
      obtain ⟨h₁, p₁, ht₁, -, hwhole, -, r, hr, hne, -, hmap⟩ :=
        ht.tables.mapPage hvirt ht.whole horderly _
      rw [hmap] at hcall
      obtain rfl := Except.ok.inj hcall
      exact TablesWhole.store ⟨ht₁, hwhole⟩ hr hne _ _
    | unmap hvirt =>
      -- the unmap has written one entry of a table that is there
      have hindex := dirIndex_lt hvirt
      obtain ⟨r, hr, hne, hentry⟩ :=
        ht.tables.table_of_present hindex horderly (ht.whole _ hindex)
      rw [vmmUnmapPage, ← dirEntry, hentry, ht.tables.tableOf_table hr]
      exact ht.store hr hne _ _
    | @others h h' p hmem hbits =>
      -- what others do leaves the tables' words and their frames alone
      refine ⟨ht.tables.kept rfl rfl hmem fun r hr => hbits r (List.mem_cons_of_mem _ hr), ?_⟩
      intro i hi
      have hlt := ht.tables.lt ht.tables.directory
      exact ((hmem _ ht.tables.directory).word (by omega) hi).trans_ne (ht.whole i hi)

/-! ## Translations -/

/-- A call changes the translation of its page to this one, and no other. -/
def Translates (m m' : ByteMemory) (directory virt : Nat) (page : Option (Nat × Bool)) : Prop :=
  translate m' directory virt = page ∧
    ∀ w < 4294967296, w / 4096 ≠ virt / 4096 → translate m' directory w = translate m directory w

theorem page_or_presentRw (haligned : phys % 4096 = 0) : phys ||| pagePresentRw = phys + 3 := by
  have hor := or_pagePresentRw (phys / 4096)
  rwa [show phys / 4096 * 4096 = phys by omega] at hor

/-- A mapped page translates, and nothing else changes. -/
theorem TablesWhole.map_translates (ht : TablesWhole h p) (hvirt : virt < 4294967296)
    (hphys : phys < 4294967296) (haligned : phys % 4096 = 0) (hleft : TableOrFrame h p virt) :
    ∃ h' p', vmmMapPage h p virt phys = .ok (h', p') ∧ p'.directory = p.directory ∧
      Translates h.mem h'.mem p.directory virt (some (phys, true)) := by
  obtain ⟨h₁, p₁, ht₁, hdir, -, hsame, r, hr, hne, hentry, hmap⟩ :=
    ht.tables.mapPage hvirt ht.whole hleft phys
  refine ⟨_, _, hmap, hdir, ?_, ?_⟩
  · rw [page_or_presentRw haligned, ← hdir]
    refine (ht₁.translate_store hr hne hvirt hentry (by omega)).trans ?_
    have hpresent : Present (phys + 3) := by
      unfold Present
      omega
    have htable : tableOf (phys + 3) = phys := by
      unfold tableOf
      omega
    have hwrite : writable (phys + 3) = true := by
      unfold writable
      rw [decide_eq_true_eq]
      omega
    rw [if_pos hpresent, htable, hwrite]
  · intro w hw hpage
    rw [← hsame w hw, ← hdir]
    exact ht₁.translate_store_ne hr hne hvirt hentry hw hpage

/-- An unmapped page does not translate, and nothing else changes. -/
theorem PageTables.unmap_translates (ht : PageTables h p) (hvirt : virt < 4294967296)
    (hpresent : Present (dirEntry h p (dirIndex virt)))
    (hlost : dirEntry h p (dirIndex virt) ≠ lostEntry) :
    Translates h.mem (vmmUnmapPage h p virt).1.mem p.directory virt none := by
  obtain ⟨r, hr, hne, hentry⟩ := ht.table_of_present (dirIndex_lt hvirt) hpresent hlost
  rw [vmmUnmapPage, ← dirEntry, hentry, ht.tableOf_table hr]
  constructor
  · exact ht.translate_store hr hne hvirt hentry (by decide)
  · intro w hw hpage
    exact ht.translate_store_ne hr hne hvirt hentry hw hpage

/-- In orderly runs every call changes one translation, and the present entries of the directory
name distinct frames, none of them the directory's own. -/
theorem vmm_translations (hreach : ((vmmSystem TwoFramesLeft).restrict Orderly).Reachable (h, p)) :
    (∀ virt < 4294967296, ∀ phys < 4294967296, virt % 4096 = 0 → phys % 4096 = 0 →
      TableOrFrame h p virt →
      ∃ h' p', vmmMapPage h p virt phys = .ok (h', p') ∧ p'.directory = p.directory ∧
        Translates h.mem h'.mem p.directory virt (some (phys, true))) ∧
    (∀ virt < 4294967296, virt % 4096 = 0 → Present (dirEntry h p (dirIndex virt)) →
      (vmmUnmapPage h p virt).2.directory = p.directory ∧
        Translates h.mem (vmmUnmapPage h p virt).1.mem p.directory virt none) ∧
    ∀ i < 1024, Present (dirEntry h p i) → tableOf (dirEntry h p i) ≠ p.directory ∧
      ∀ j < 1024, j ≠ i → Present (dirEntry h p j) →
        tableOf (dirEntry h p j) ≠ tableOf (dirEntry h p i) := by
  have ht := reachable_tablesWhole hreach
  refine ⟨?_, ?_, ?_⟩
  · intro virt hvirt phys hphys _ haligned hleft
    exact ht.map_translates hvirt hphys haligned hleft
  · intro virt hvirt _ hpresent
    exact ⟨rfl, ht.tables.unmap_translates hvirt hpresent (ht.whole _ (dirIndex_lt hvirt))⟩
  · intro i hi hpresent
    obtain ⟨r, hr, hne, hentry⟩ := ht.tables.table_of_present hi hpresent (ht.whole i hi)
    rw [hentry, ht.tables.tableOf_table hr]
    refine ⟨hne, fun j hj hji hpresent' heq => hji ?_⟩
    obtain ⟨r', hr', -, hentry'⟩ := ht.tables.table_of_present hj hpresent' (ht.whole j hj)
    rw [hentry', ht.tables.tableOf_table hr'] at heq
    refine ht.tables.distinct j hj i hi hpresent' (ht.whole j hj) ?_
    rw [hentry, hentry', heq]

end

/-- The machine when `vmm_init` is called: memory is zero and frame 0 alone in use. -/
def emptyMachine : Heap := ⟨fun _ => 0, 0, fun i => if i = 0 then 1 else 0⟩

theorem emptyMachine_booted : BootedAbove emptyMachine.bitmap :=
  ⟨⟨1, 2, by decide, by decide, by decide, by decide, by decide⟩, by decide⟩

/-- After `vmm_init` the first region has a table and the second has none. -/
theorem vmmInit_emptyMachine : ∃ h p, vmmInit emptyMachine ⟨0, [], []⟩ = .ok (h, p) ∧
    Present (dirEntry h p 0) ∧ dirEntry h p 0 ≠ lostEntry ∧ dirEntry h p 1 = 0 := by
  obtain ⟨h, p, hinit, -, hnone, hfirst, hlost, -⟩ :=
    vmmInit_spec (p := ⟨0, [], []⟩) rfl emptyMachine_booted.1
  exact ⟨h, p, hinit, hfirst, hlost, hnone 1 (by decide) (by decide)⟩

/-- The page behind the first one is mapped to 8 MiB. -/
theorem vmm_translations_emptyMachine : ∃ h p h' p',
    vmmMapPage h p 0x1000 0x800000 = .ok (h', p') ∧
      translate h'.mem p.directory 0x1000 = some (0x800000, true) ∧
      translate h'.mem p.directory 0x2000 = translate h.mem p.directory 0x2000 := by
  obtain ⟨h, p, hinit, hpresent, -, -⟩ := vmmInit_emptyMachine
  have hreach : ((vmmSystem TwoFramesLeft).restrict Orderly).Reachable (h, p) :=
    .init ⟨emptyMachine, ⟨0, [], []⟩, rfl, emptyMachine_booted.1, hinit⟩
  obtain ⟨h', p', hmap, -, hself, hothers⟩ := (vmm_translations hreach).1 0x1000 (by decide)
    0x800000 (by decide) (by decide) (by decide) (.inl hpresent)
  exact ⟨h, p, h', p', hmap, hself, hothers 0x2000 (by decide) (by decide)⟩

/-! ## Unmapping anything -/

/-- The page is not mapped afterwards, all others are as before, and the one store of the call goes
into the directory or a table that was obtained. -/
structure UnmapSafe (h : Heap) (p : Paging) (virt : Nat) : Prop where
  translates : Translates h.mem (vmmUnmapPage h p virt).1.mem p.directory virt none
  inside : ∃ a, (vmmUnmapPage h p virt).2.stores = a :: p.stores ∧ a.Real

section

variable {h : Heap} {p : Paging} {r virt : Nat}

/-- The store goes into frame 0 or into the last page where there is no table. -/
theorem TablesAbove.table_of_real (ht : TablesAbove h p) (hvirt : virt < 4294967296)
    (hreal : TableStore.Real
      ⟨u32 (tableOf (dirEntry h p (dirIndex virt)) + 4 * tableIndex virt), p.obtained⟩) :
    Present (dirEntry h p (dirIndex virt)) ∧ dirEntry h p (dirIndex virt) ≠ lostEntry := by
  obtain ⟨r, hr, hlow, hhigh⟩ := hreal
  simp only at hr hlow hhigh
  have hlt := ht.tables.lt hr
  have habove := ht.tables.above_zero ht.zero hr
  have htable := tableIndex_lt virt
  unfold u32 at hlow hhigh
  rcases ht.tables.entries _ (dirIndex_lt hvirt) with hnone | hlost | ⟨r', hr', -, hentry⟩
  · rw [hnone, show tableOf 0 = 0 from rfl] at hlow
    omega
  · rw [hlost, tableOf_lost] at hhigh
    omega
  · have hlt' := ht.tables.lt hr'
    rw [hentry]
    refine ⟨ht.tables.present_table hr', ?_⟩
    unfold lostEntry
    omega

/-- An unmap is safe exactly when the directory names a table that was obtained. -/
theorem TablesAbove.unmapSafe_iff (ht : TablesAbove h p) (hvirt : virt < 4294967296) :
    UnmapSafe h p virt ↔
      Present (dirEntry h p (dirIndex virt)) ∧ dirEntry h p (dirIndex virt) ≠ lostEntry := by
  constructor
  · rintro ⟨-, a, hstores, hreal⟩
    obtain ⟨rfl, -⟩ := List.cons.inj hstores
    exact ht.table_of_real hvirt hreal
  · rintro ⟨hpresent, hlost⟩
    refine ⟨ht.tables.unmap_translates hvirt hpresent hlost, _, rfl, ?_⟩
    obtain ⟨r, hr, -, hentry⟩ := ht.tables.table_of_present (dirIndex_lt hvirt) hpresent hlost
    have hlt := ht.tables.lt hr
    have htable := tableIndex_lt virt
    refine ⟨r, hr, ?_⟩
    simp only
    rw [← dirEntry, hentry, ht.tables.tableOf_table hr]
    unfold u32
    omega

/-- After any run of maps and unmaps a page can be unmapped safely exactly if the directory names a
table for its region, one that `pmm_alloc_frame` has handed out. -/
theorem vmmUnmapPage_safe_iff (hreach : (vmmSystem BootedAbove).Reachable (h, p))
    (hvirt : virt < 4294967296) :
    UnmapSafe h p virt ↔
      Present (dirEntry h p (dirIndex virt)) ∧ dirEntry h p (dirIndex virt) ≠ lostEntry :=
  (reachable_tablesAbove hreach).unmapSafe_iff hvirt

end

/-- Right after `vmm_init`, unmapping the page at 4 MiB writes to address 0, in no frame of the
vmm. -/
theorem vmmUnmapPage_unsafe :
    (∃ h p, (vmmSystem BootedAbove).Reachable (h, p) ∧
      (vmmUnmapPage h p 0x400000).2.stores = ⟨0, p.obtained⟩ :: p.stores ∧
      ¬ TableStore.Real ⟨0, p.obtained⟩) ∧
    ¬ ∀ h p, (vmmSystem BootedAbove).Reachable (h, p) →
      ∀ virt < 4294967296, UnmapSafe h p virt := by
  obtain ⟨h, p, hinit, -, -, hnone⟩ := vmmInit_emptyMachine
  have hreach : (vmmSystem BootedAbove).Reachable (h, p) :=
    .init ⟨emptyMachine, ⟨0, [], []⟩, rfl, emptyMachine_booted, hinit⟩
  have hstores : (vmmUnmapPage h p 0x400000).2.stores = ⟨0, p.obtained⟩ :: p.stores := by
    have hentry : word h.mem (p.directory + 4 * dirIndex 0x400000) = 0 := hnone
    unfold vmmUnmapPage
    rw [hentry]
    rfl
  have hunreal : ¬ TableStore.Real ⟨0, p.obtained⟩ := by
    rintro ⟨r, hr, hlow, -⟩
    have ht := reachable_tablesAbove hreach
    have habove := ht.tables.above_zero ht.zero hr
    simp only at hlow
    omega
  refine ⟨⟨h, p, hreach, hstores, hunreal⟩, fun hsafe => ?_⟩
  obtain ⟨-, a, hstores', hreal⟩ := hsafe h p hreach 0x400000 (by decide)
  obtain ⟨rfl, -⟩ := List.cons.inj (hstores.symm.trans hstores')
  exact hunreal hreal

/-- The page behind the first one can be unmapped. -/
theorem vmmUnmapPage_safe_emptyMachine : ∃ h p, (vmmSystem BootedAbove).Reachable (h, p) ∧
    UnmapSafe h p 0x1000 := by
  obtain ⟨h, p, hinit, hpresent, hlost, -⟩ := vmmInit_emptyMachine
  have hreach : (vmmSystem BootedAbove).Reachable (h, p) :=
    .init ⟨emptyMachine, ⟨0, [], []⟩, rfl, emptyMachine_booted, hinit⟩
  exact ⟨h, p, hreach, (vmmUnmapPage_safe_iff hreach (by decide)).mpr ⟨hpresent, hlost⟩⟩

end Pelikan

end SystemsProjects

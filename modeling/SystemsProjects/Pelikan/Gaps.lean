import SystemsProjects.Pelikan.HeapRuns

/-!
# Gaps between blocks

Blocks that follow each other on the list may touch or not. `Smooth l a`: there is no gap at the
address `a`, it is inside a block or between two that touch. Cutting a block and joining two
that touch leave this as it is (`Smooth.replace`), and where a block begins or ends there is a
gap unless its neighbour on the list is there (`Shape.smooth_addr`, `Shape.smooth_stop`).

The notion is needed for `prev` words that are out of date: such a word leads to a place that
once was the beginning of a block, and what has happened since then has opened no gap there.
-/

namespace SystemsProjects

namespace Pelikan

/-- No gap between the byte in front of `a` and the byte at `a`: both are in the same block, or
in two that touch and follow each other on the list. -/
def Smooth : List Block → Nat → Prop
  | [], _ => False
  | b :: l, a => (b.addr < a ∧ a < b.stop) ∨ (b.stop = a ∧ first l 0 = a) ∨ Smooth l a

/-- Where the last block ends, or `e` when there is none. -/
def stopOf : List Block → Nat → Nat
  | [], e => e
  | b :: l, _ => stopOf l b.stop

section

variable {h h' : Heap} {b c x y z : Block} {l l' pre seg seg' post : List Block}
  {frames : Finset Nat} {a e p q v size : Nat}

theorem Block.stop_pos (b : Block) : b.addr + 20 ≤ b.stop ∧ 0 < b.stop := by
  unfold Block.stop blockSize
  omega

/-- The end of a list is that of its last block. -/
theorem stopOf_append (l₁ l₂ : List Block) (e : Nat) :
    stopOf (l₁ ++ l₂) e = stopOf l₂ (stopOf l₁ e) := by
  induction l₁ generalizing e with
  | nil => rfl
  | cons b l₁ ih => exact ih b.stop

/-- Inside one of two lists, or at the seam. -/
theorem smooth_append {l₁ l₂ : List Block} : Smooth (l₁ ++ l₂) a ↔
    Smooth l₁ a ∨ (l₁ ≠ [] ∧ stopOf l₁ 0 = a ∧ first l₂ 0 = a) ∨ Smooth l₂ a := by
  induction l₁ with
  | nil => simp [Smooth]
  | cons b l₁ ih =>
    cases l₁ with
    | nil =>
      have hzero : ¬ (b.stop = a ∧ 0 = a) := by
        have hpos := b.stop_pos
        omega
      show (b.addr < a ∧ a < b.stop) ∨ (b.stop = a ∧ first l₂ 0 = a) ∨ Smooth l₂ a ↔
        ((b.addr < a ∧ a < b.stop) ∨ (b.stop = a ∧ 0 = a) ∨ False) ∨ _
      simp [hzero, stopOf]
    | cons c l₁ =>
      show (b.addr < a ∧ a < b.stop) ∨ (b.stop = a ∧ c.addr = a) ∨ Smooth (c :: l₁ ++ l₂) a ↔
        ((b.addr < a ∧ a < b.stop) ∨ (b.stop = a ∧ c.addr = a) ∨ Smooth (c :: l₁) a) ∨
          (_ ∧ stopOf (c :: l₁) 0 = a ∧ _) ∨ _
      rw [ih]
      simp [or_assoc]

/-- A segment is exchanged for one at the same place. -/
theorem Smooth.replace (h : Smooth (pre ++ (seg ++ post)) a) (hne : seg ≠ [])
    (hne' : seg' ≠ []) (hfirst : first seg' 0 = first seg 0) (hstop : stopOf seg' 0 = stopOf seg 0)
    (hseg : Smooth seg a → Smooth seg' a) : Smooth (pre ++ (seg' ++ post)) a := by
  have hends : first (seg' ++ post) 0 = first (seg ++ post) 0 := by
    cases seg with
    | nil => exact absurd rfl hne
    | cons s seg =>
      cases seg' with
      | nil => exact absurd rfl hne'
      | cons s' seg' => exact hfirst
  rw [smooth_append, smooth_append] at h ⊢
  rw [hends, hstop]
  rcases h with h | h | h | h | h
  · exact .inl h
  · exact .inr (.inl h)
  · exact .inr (.inr (.inl (hseg h)))
  · exact .inr (.inr (.inr (.inl ⟨hne', h.2⟩)))
  · exact .inr (.inr (.inr (.inr h)))

/-- Such an address is inside a block, or one block ends and another one begins there. -/
theorem Smooth.cases (h : Smooth l a) (ha : a ≠ 0) :
    (∃ b ∈ l, b.addr < a ∧ a < b.stop) ∨ (∃ b ∈ l, b.stop = a) ∧ ∃ b ∈ l, b.addr = a := by
  induction l with
  | nil => exact absurd h id
  | cons b l ih =>
    rcases h with h | ⟨hstop, hfirst⟩ | h
    · exact .inl ⟨b, List.mem_cons_self .., h⟩
    · refine .inr ⟨⟨b, List.mem_cons_self .., hstop⟩, ?_⟩
      cases l with
      | nil => exact absurd hfirst.symm ha
      | cons c l => exact ⟨c, by simp, hfirst⟩
    · rcases ih h with ⟨c, hc, hin⟩ | ⟨⟨c, hc, hstop⟩, d, hd, haddr⟩
      · exact .inl ⟨c, List.mem_cons_of_mem _ hc, hin⟩
      · exact .inr ⟨⟨c, List.mem_cons_of_mem _ hc, hstop⟩, d, List.mem_cons_of_mem _ hd, haddr⟩

/-- The memory below the first block and behind the last one is not smooth. -/
theorem Shape.smooth_lt (hs : Shape h l frames) (h : Smooth l a) : a < 134217728 := by
  by_cases ha : a = 0
  · omega
  rcases h.cases ha with ⟨b, hb, -, hlt⟩ | ⟨-, b, hb, rfl⟩
  · have hbounds := (hs.bounds hb).2
    omega
  · have hbounds := (hs.bounds hb).2
    have hpos := b.stop_pos
    omega

/-- Two blocks of the list that have an address in common are the same. -/
theorem Shape.eq_of_has (hs : Shape h l frames) (hb : b ∈ l) (hc : c ∈ l) (hba : b.addr ≤ a)
    (hba' : a < b.stop) (hca : c.addr ≤ a) (hca' : a < c.stop) : b = c := by
  by_contra hne
  have hapart := hs.apart hb hc hne
  omega

/-- Where a block begins there is a gap, unless the block in front of it ends there. -/
theorem Shape.smooth_addr (hs : Shape h (pre ++ ([c] ++ post)) frames)
    (hsmooth : Smooth (pre ++ ([c] ++ post)) c.addr) : pre ≠ [] ∧ stopOf pre 0 = c.addr := by
  have hc : c ∈ pre ++ ([c] ++ post) := List.mem_append_right _ (List.mem_cons_self ..)
  have hzero := hs.addr_ne_zero hc
  -- no other block has the address
  have hother : ∀ l', (∀ b ∈ l', b ∈ pre ++ ([c] ++ post) ∧ b ≠ c) → ¬ Smooth l' c.addr := by
    intro l' hl' h
    rcases h.cases hzero with ⟨b, hb, hlt, hlt'⟩ | ⟨-, b, hb, haddr⟩
    · refine (hl' b hb).2 (hs.eq_of_has (hl' b hb).1 hc (Nat.le_of_lt hlt) hlt' (Nat.le_refl _) ?_)
      have hpos := c.stop_pos
      omega
    · exact (hl' b hb).2 (hs.eq_of_addr (hl' b hb).1 hc haddr)
  have hpre : ∀ b ∈ pre, b ∈ pre ++ ([c] ++ post) ∧ b ≠ c := fun b hb =>
    ⟨List.mem_append_left _ hb, hs.ne_of_mem (List.mem_append_left _ hb)⟩
  have hpost : ∀ b ∈ post, b ∈ pre ++ ([c] ++ post) ∧ b ≠ c := fun b hb =>
    ⟨List.mem_append_right _ (List.mem_append_right _ hb),
      hs.ne_of_mem (List.mem_append_right _ hb)⟩
  rw [smooth_append] at hsmooth
  rcases hsmooth with h | ⟨hne, hstop, -⟩ | h
  · exact absurd h (hother pre hpre)
  · exact ⟨hne, hstop⟩
  · rcases h with ⟨hlt, -⟩ | ⟨hstop, -⟩ | h
    · exact absurd hlt (Nat.lt_irrefl _)
    · have hpos := c.stop_pos
      omega
    · exact absurd h (hother post hpost)

/-- Where a block ends there is a gap, unless the block behind it begins there. -/
theorem Shape.smooth_stop (hs : Shape h (pre ++ ([x] ++ post)) frames)
    (hsmooth : Smooth (pre ++ ([x] ++ post)) x.stop) : first post 0 = x.stop := by
  have hx : x ∈ pre ++ ([x] ++ post) := List.mem_append_right _ (List.mem_cons_self ..)
  have hpos := x.stop_pos
  rcases hsmooth.cases (Nat.ne_of_gt hpos.2) with ⟨b, hb, hlt, hlt'⟩ | ⟨-, y, hy, haddr⟩
  · -- the last byte of `x` would be in two blocks
    have hbx : b = x := by
      refine hs.eq_of_has (a := x.stop - 1) hb hx ?_ ?_ ?_ ?_ <;> omega
    rw [hbx] at hlt'
    exact absurd hlt' (Nat.lt_irrefl _)
  · obtain ⟨pre', post', hl⟩ := List.append_of_mem hy
    have hs' : Shape h (pre' ++ ([y] ++ post')) frames := hl ▸ hs
    obtain ⟨hne, hstop⟩ := hs'.smooth_addr (by
      show Smooth (pre' ++ y :: post') y.addr
      rw [← hl, haddr]
      exact hsmooth)
    -- the block in front of `y` is `x`, and its link leads to `y`
    rcases List.eq_nil_or_concat pre' with rfl | ⟨pre'', w, rfl⟩
    · exact absurd rfl hne
    · rw [List.concat_eq_append, stopOf_append] at hstop
      have hstop : w.stop = x.stop := hstop.trans haddr
      rw [List.concat_eq_append, List.append_assoc] at hl
      have hw : w ∈ pre ++ ([x] ++ post) := by
        rw [hl]
        simp
      have hwx : w = x := by
        have hposw := w.stop_pos
        refine hs.eq_of_has (a := x.stop - 1) hw hx ?_ ?_ ?_ ?_ <;> omega
      have hs'' : Shape h (pre'' ++ ([w] ++ y :: post')) frames := hl ▸ hs
      have hnext := hs''.header.next
      rw [hwx, hs.header.next] at hnext
      rw [hnext, ← haddr]
      rfl

end

end Pelikan

end SystemsProjects

import Mathlib.Data.Finset.Card
import SystemsProjects.Bytecode.CodeBuffer

/-!
# Variables and their slots

`walk` gives a variable the next free entry of `var_names` at its first assignment and looks
it up from then on. The operands of `OP_STORE` and `OP_LOAD` are one byte, and `var_names` has
256 entries; nothing compares `var_count` with that.

- `VarTable.Holds`: the names a table holds, and that it holds each of them once.
- `Placed.le_final`, `Placed.known`: the tables that `walk` goes through, against the one at the
  end; what a table holds was assigned further up in the code.
- `SlotsKept`: what the operands of the code say.
- `neverAlias_iff`: variables are kept apart exactly when at most 256 of them are assigned.

`walk` passes through one table after another, each with one name more or the same. None of them
moves a name (`Placed.le_final`), so what the operands mean can be said of the table at the end:
`SlotsKept` reads the operands off the array and compares them with it. The 257th name has no
entry left, and a write to `var_names` behind its end is what `not_neverAlias_assignments` shows.
-/

namespace SystemsProjects

namespace Bytecode

/-! ## The names of a table -/

/-- The table holds the names of `s`, each of them once. -/
structure VarTable.Holds (t : VarTable) (s : Finset Name) : Prop where
  ok : t.Ok
  count : t.count = s.card
  found : ∀ x, x ≠ Name.empty → (x ∈ s ↔ (t.lookup x).isSome)

theorem VarTable.empty_holds : VarTable.empty.Holds ∅ := by
  refine ⟨VarTable.empty_ok, rfl, fun x hx => iff_of_false (Finset.notMem_empty x) ?_⟩
  have hnone : VarTable.empty.lookup x = none :=
    VarTable.lookup_eq_none.mpr fun i _ h => hx h.symm
  rw [hnone]
  exact Bool.false_ne_true

section Holds

variable {t : VarTable} {s : Finset Name} {x : Name}

/-- A name that is in the table already. -/
theorem VarTable.Holds.declare_old (h : t.Holds s) (hx : x ≠ Name.empty) (hmem : x ∈ s) :
    (t.declare x).Holds (insert x s) := by
  obtain ⟨i, hi⟩ := Option.isSome_iff_exists.mp ((h.found x hx).mp hmem)
  have hsame : t.declare x = t := by
    rw [VarTable.declare, hi]
  rwa [hsame, Finset.insert_eq_of_mem hmem]

/-- A new name takes the next entry, if there is one. -/
theorem VarTable.Holds.declare_new (h : t.Holds s) (hx : x ≠ Name.empty) (hmem : x ∉ s)
    (hroom : t.count < 256) : (t.declare x).Holds (insert x s) := by
  have hnone : t.lookup x = none := by
    rw [← Option.not_isSome_iff_eq_none]
    exact fun hsome => hmem ((h.found x hx).mpr hsome)
  have hself := VarTable.lookup_declare (x := x) hroom
  refine ⟨h.ok.declare x, ?_, fun y hy => ?_⟩
  · -- one name more, and one entry more
    rw [Finset.card_insert_of_notMem hmem, ← h.count, VarTable.declare, hnone]
  · rw [Finset.mem_insert]
    by_cases hyx : y = x
    · subst hyx
      rw [hself]
      exact iff_of_true (.inl rfl) rfl
    · rw [or_iff_right hyx, h.found y hy]
      constructor
      · intro hsome
        obtain ⟨i, hi⟩ := Option.isSome_iff_exists.mp hsome
        rw [h.ok.le_declare x y i hy hi]
        rfl
      · -- the entry of `x` is the only one that is new
        intro hsome
        obtain ⟨i, hi⟩ := Option.isSome_iff_exists.mp hsome
        obtain ⟨hlt, hname, -⟩ := VarTable.lookup_eq_some.mp hi
        rw [Option.isSome_iff_ne_none]
        intro hnone'
        have hfree := VarTable.lookup_eq_none.mp hnone' i hlt
        rw [VarTable.declare, hnone] at hname
        dsimp only at hname
        by_cases hcount : i = t.count
        · rw [hcount, Function.update_self] at hname
          exact hyx hname.symm
        · rw [Function.update_of_ne hcount] at hname
          exact hfree hname

/-- As long as the table has room, it holds the names that were declared. -/
theorem VarTable.Holds.declareAll {xs : List Name} (h : t.Holds s)
    (hxs : ∀ x ∈ xs, x ≠ Name.empty)
    (hroom : (t.declareAll xs).count ≤ 256 ∨ (s ∪ xs.toFinset).card ≤ 256) :
    (t.declareAll xs).Holds (s ∪ xs.toFinset) := by
  induction xs generalizing t s with
  | nil => rwa [List.toFinset_nil, Finset.union_empty]
  | cons x xs ih =>
    rw [List.forall_mem_cons] at hxs
    have hset : s ∪ (x :: xs).toFinset = insert x s ∪ xs.toFinset := by
      rw [List.toFinset_cons, Finset.union_insert, Finset.insert_union]
    rw [hset] at hroom ⊢
    have hstep : (t.declare x).Holds (insert x s) := by
      by_cases hmem : x ∈ s
      · exact h.declare_old hxs.1 hmem
      · refine h.declare_new hxs.1 hmem ?_
        -- a new name: the table has room for it by either bound
        rcases hroom with hcount | hcard
        · have hnone : t.lookup x = none := by
            rw [← Option.not_isSome_iff_eq_none]
            exact fun hsome => hmem ((h.found x hxs.1).mpr hsome)
          have hmono : (t.declare x).count ≤ (t.declareAll (x :: xs)).count :=
            (t.declare x).count_le_declareAll xs
          have hnext : (t.declare x).count = t.count + 1 := by
            rw [VarTable.declare, hnone]
          omega
        · have hsub : (insert x s).card ≤ (insert x s ∪ xs.toFinset).card :=
            Finset.card_le_card Finset.subset_union_left
          rw [Finset.card_insert_of_notMem hmem, ← h.count] at hsub
          omega
    exact ih hstep hxs.2 hroom

end Holds

/-- The variables of a list fit the table exactly when there are at most 256 of them. -/
theorem count_le_iff_card_le {xs : List Name} (hxs : ∀ x ∈ xs, x ≠ Name.empty) :
    (VarTable.empty.declareAll xs).count ≤ 256 ↔ xs.toFinset.card ≤ 256 := by
  have hholds := VarTable.empty_holds.declareAll hxs
  rw [Finset.empty_union] at hholds
  constructor
  · intro h
    rwa [← (hholds (.inl h)).count]
  · intro h
    rwa [(hholds (.inr h)).count]

/-- As long as the table has room, a name is found at the slot `OP_STORE` got. -/
theorem VarTable.lookup_declare_of_count {t : VarTable} {x : Name}
    (hcount : (t.declare x).count ≤ 256) : (t.declare x).lookup x = some (t.slotFor x) := by
  cases hslot : t.lookup x with
  | some i =>
    rw [VarTable.declare, VarTable.slotFor, hslot]
    exact hslot
  | none =>
    refine VarTable.lookup_declare ?_
    rw [VarTable.declare, hslot] at hcount
    exact hcount

/-- A declared name is found. -/
theorem lookup_declareAll_of_mem {t : VarTable} {xs : List Name} {x : Name} (hok : t.Ok)
    (hx : x ∈ xs) (hne : x ≠ Name.empty) (hcount : (t.declareAll xs).count ≤ 256) :
    ∃ i, (t.declareAll xs).lookup x = some i := by
  induction xs generalizing t with
  | nil => cases hx
  | cons y ys ih =>
    rcases List.mem_cons.mp hx with rfl | hx
    · have hmono : (t.declare x).count ≤ (t.declareAll (x :: ys)).count :=
        (t.declare x).count_le_declareAll ys
      have hi := VarTable.lookup_declare_of_count (Nat.le_trans hmono hcount)
      exact ⟨_, (hok.declare x).le_declareAll ys x _ hne hi⟩
    · exact ih (hok.declare y) hx hcount

/-! ## Tables on the way -/

/-- The expression of a statement. Its code is the first of the statement's. -/
def Stmt.expr : Stmt → Expr
  | .assign _ e => e
  | .print e => e
  | .ifStmt c _ => c
  | .whileStmt c _ => c

/-- `OP_LOAD` for the name `x` stands at `p` in the code of the expression that starts at `n`. -/
inductive ReadAt (t : VarTable) : Nat → Expr → Nat → Name → Prop where
  | here {n : Nat} {x : Name} : ReadAt t n (.ident x) n x
  | left {n p : Nat} {op : BinOp} {l r : Expr} {x : Name} (h : ReadAt t n l p x) :
    ReadAt t n (.bin op l r) p x
  | right {n p : Nat} {op : BinOp} {l r : Expr} {x : Name} (h : ReadAt t (n + l.size t) r p x) :
    ReadAt t n (.bin op l r) p x

/-- The load of a name lies in the code of the expression that reads it. -/
theorem ReadAt.slice {t : VarTable} {n p : Nat} {e : Expr} {x : Name} (h : ReadAt t n e p x) :
    Slice n (exprCode t e) p (exprCode t (.ident x)) := by
  induction h with
  | here => exact .refl _ _
  | left h ih => exact ih.append_right _
  | right h ih =>
    refine Slice.append_left ?_
    rw [exprCode_length]
    exact ih.append_right _

theorem ReadAt.lt {t : VarTable} {n p : Nat} {e : Expr} {x : Name} (h : ReadAt t n e p x) :
    p < n + e.size t := by
  have hle := h.slice.le_length
  have hpos : 0 < (exprCode t (.ident x)).length := Nat.succ_pos _
  rw [exprCode_length t e] at hle
  omega

theorem Stmt.expr_le_size (s : Stmt) (t : VarTable) : s.expr.size t ≤ s.size t := by
  cases s with
  | assign x e => exact Nat.le_add_right _ _
  | print e => exact Nat.le_add_right _ _
  | ifStmt c b =>
    show c.size t ≤ c.size t + 2 + Stmt.sizeList t b
    omega
  | whileStmt c b =>
    show c.size t ≤ c.size t + 2 + Stmt.sizeList t b + 2
    omega

/-- The code of a statement begins with that of its expression. -/
theorem Stmt.expr_slice (s : Stmt) (t : VarTable) (n : Nat) :
    Slice n (stmtCode t n s) n (exprCode t s.expr) := by
  cases s with
  | assign x e => exact (Slice.refl _ _).append_right _
  | print e => exact (Slice.refl _ _).append_right _
  | ifStmt c b => exact (Slice.refl _ _).append_right _
  | whileStmt c b => exact (Slice.refl _ _).append_right _

section Placed

variable {t t' t₁ : VarTable} {n n' n₁ p : Nat} {ss : List Stmt} {s : Stmt} {e : Expr} {x : Name}

/-- A statement lies behind the start of the program it is in. -/
theorem Placed.ge (h : Placed t n ss t' n' s) : n ≤ n' := by
  obtain ⟨pre, post, -, hn⟩ := h.slice
  omega

/-- A placed statement ends before the code of the list does. -/
theorem Placed.le_size (h : Placed t n ss t' n' s) :
    n' + s.size t' ≤ n + Stmt.sizeList t ss := by
  have hle := h.slice.le_length
  rwa [stmtCode_length, stmtsCode_length] at hle

/-- The table in front of a placed statement has the slots of the one in front of the list,
and the table behind it is kept up to the end of the list. -/
theorem Placed.le_final (h : Placed t n ss t' n' s) (hok : t.Ok) :
    t'.Ok ∧ t.Le t' ∧ (t'.declareAll s.assigned).Le (t.declareAll (Stmt.assignedList ss)) ∧
      (t'.declareAll s.assigned).count ≤ (t.declareAll (Stmt.assignedList ss)).count := by
  induction h with
  | @head t n s ss =>
    rw [VarTable.declareAll_assignedList_cons]
    exact ⟨hok, .refl t, (hok.declareAll _).le_declareAll _,
      (t.declareAll s.assigned).count_le_declareAll _⟩
  | @tail t t' n n' s s' ss h ih =>
    -- what stands behind a statement declares more names, and moves none
    rw [VarTable.declareAll_assignedList_cons]
    obtain ⟨hok', hle, hrest⟩ := ih (hok.declareAll _)
    exact ⟨hok', (hok.le_declareAll _).trans hle, hrest⟩
  | @ifBody t t' n n' c b ss s' h ih =>
    rw [VarTable.declareAll_assignedList_cons]
    obtain ⟨hok', hle, hrest, hcount⟩ := ih hok
    exact ⟨hok', hle, hrest.trans ((hok.declareAll _).le_declareAll _),
      Nat.le_trans hcount ((t.declareAll _).count_le_declareAll _)⟩
  | @whileBody t t' n n' c b ss s' h ih =>
    rw [VarTable.declareAll_assignedList_cons]
    obtain ⟨hok', hle, hrest, hcount⟩ := ih hok
    exact ⟨hok', hle, hrest.trans ((hok.declareAll _).le_declareAll _),
      Nat.le_trans hcount ((t.declareAll _).count_le_declareAll _)⟩

/-- What an inner statement assigns, the program does. -/
theorem Placed.assigned_subset (h : Placed t n ss t' n' s) :
    ∀ x ∈ s.assigned, x ∈ Stmt.assignedList ss := by
  intro x hx
  induction h with
  | head => exact List.mem_append_left _ hx
  | tail h ih => exact List.mem_append_right _ (ih hx)
  | ifBody h ih => exact List.mem_append_left _ (ih hx)
  | whileBody h ih => exact List.mem_append_left _ (ih hx)

/-- Behind a statement that assigns the name, the table holds it. -/
theorem Placed.known_behind {s₁ : Stmt} {k : Nat}
    (h : Placed (t.declareAll s₁.assigned) k ss t' n' s)
    (hok : t.Ok) (hx : x ∈ s₁.assigned) (hne : x ≠ Name.empty)
    (hcount : (t.declareAll (Stmt.assignedList (s₁ :: ss))).count ≤ 256) :
    ∃ i, t'.lookup x = some i := by
  rw [VarTable.declareAll_assignedList_cons] at hcount
  have hmono := (t.declareAll s₁.assigned).count_le_declareAll (Stmt.assignedList ss)
  obtain ⟨i, hi⟩ := lookup_declareAll_of_mem hok hx hne (by omega)
  exact ⟨i, (h.le_final (hok.declareAll _)).2.1 x i hne hi⟩

/-- A name whose store stands further up in the code is in the table. The induction follows the
place of the store. -/
theorem Placed.known (h₁ : Placed t n ss t₁ n₁ (.assign x e)) (h₂ : Placed t n ss t' n' s)
    (hread : p < n' + s.expr.size t') (hlt : n₁ + e.size t₁ < p) (hok : t.Ok)
    (hne : x ≠ Name.empty) (hcount : (t.declareAll (Stmt.assignedList ss)).count ≤ 256) :
    ∃ i, t'.lookup x = some i := by
  generalize hs₁ : Stmt.assign x e = s₁ at h₁
  induction h₁ with
  | @head t n s₁ ss =>
    subst hs₁
    cases h₂ with
    | head => exact absurd hread (by simp only [Stmt.expr]; omega)
    | tail h => exact h.known_behind hok (List.mem_singleton_self x) hne hcount
  | @tail t t₁ n n₁ s₀ s₁ ss h ih =>
    have hge := h.ge
    have hsize₀ := s₀.expr_le_size t
    -- in front of the store there is nothing that is read behind it
    cases h₂ with
    | head => omega
    | tail h' =>
      rw [VarTable.declareAll_assignedList_cons] at hcount
      exact ih h' hlt (hok.declareAll _) hcount hs₁
    | @ifBody _ _ _ _ c b _ _ h' =>
      have hend := h'.le_size
      have hsize := s.expr_le_size t'
      have hwhole : (Stmt.ifStmt c b).size t = c.size t + 2 + Stmt.sizeList t b := rfl
      omega
    | @whileBody _ _ _ _ c b _ _ h' =>
      have hend := h'.le_size
      have hsize := s.expr_le_size t'
      have hwhole : (Stmt.whileStmt c b).size t = c.size t + 2 + Stmt.sizeList t b + 2 := rfl
      omega
  | @ifBody t t₁ n n₁ c b ss s₁ h ih =>
    have hge := h.ge
    subst hs₁
    cases h₂ with
    | head =>
      simp only [Stmt.expr] at hread
      omega
    | tail h' =>
      exact h'.known_behind hok (h.assigned_subset x (List.mem_singleton_self x)) hne hcount
    | ifBody h' =>
      refine ih h' hlt hok (Nat.le_trans ?_ hcount) rfl
      rw [VarTable.declareAll_assignedList_cons]
      exact (t.declareAll (Stmt.assignedList b)).count_le_declareAll _
  | @whileBody t t₁ n n₁ c b ss s₁ h ih =>
    have hge := h.ge
    subst hs₁
    cases h₂ with
    | head =>
      simp only [Stmt.expr] at hread
      omega
    | tail h' =>
      exact h'.known_behind hok (h.assigned_subset x (List.mem_singleton_self x)) hne hcount
    | whileBody h' =>
      refine ih h' hlt hok (Nat.le_trans ?_ hcount) rfl
      rw [VarTable.declareAll_assignedList_cons]
      exact (t.declareAll (Stmt.assignedList b)).count_le_declareAll _

end Placed

/-! ## What the operands say -/

/-- The operands of the code, against the table at the end. A load that stands behind a store of
its name is one of an assigned name. -/
structure SlotsKept (g : GenState) (prog : List Stmt) : Prop where
  stores : ∀ t n x e, Placed .empty 0 prog t n (.assign x e) → ∃ i, i < 256 ∧
    g.vars.lookup x = some i ∧ g.byteArray (n + e.size t) = OpCode.opStore.toByte ∧
    g.byteArray (n + e.size t + 1) = BitVec.ofNat 8 i
  loads : ∀ t₁ n₁ x e t n s p, Placed .empty 0 prog t₁ n₁ (.assign x e) →
    Placed .empty 0 prog t n s → ReadAt t n s.expr p x → n₁ + e.size t₁ < p →
    ∃ i, i < 256 ∧ g.vars.lookup x = some i ∧ g.byteArray p = OpCode.opLoad.toByte ∧
      g.byteArray (p + 1) = BitVec.ofNat 8 i
  distinct : ∀ x y i, g.vars.lookup x = some i → g.vars.lookup y = some i → x = y
  stable : ∀ t n s, Placed .empty 0 prog t n s → t.Le g.vars

/-- Code generation ends, with no write outside `var_names`, and the slots are kept. -/
def NeverAlias (mem : Nat → Byte) (statements : List Node) (len : Nat) (prog : List Stmt) : Prop :=
  (∀ i, generateByte mem .empty statements len ≠ .error (.varNamesOverflow i)) ∧
    ∃ g, generateByte mem .empty statements len = .ok g ∧ SlotsKept g prog

/-- With at most 256 names no two of them share a slot. -/
theorem slotsKept_of_count {mem : Nat → Byte} {statements : List Node} {len : Nat}
    {prog : List Stmt} {g : GenState} (hprog : program? statements len = some prog)
    (hg : generateByte mem .empty statements len = .ok g)
    (hnames : ∀ x ∈ Stmt.assignedList prog, x ≠ Name.empty)
    (hcount : (VarTable.empty.declareAll (Stmt.assignedList prog)).count ≤ 256) :
    SlotsKept g prog := by
  obtain ⟨-, harray, hvars⟩ := generateByte_eq hprog hg
  -- the bytes of a part of the code, in the array
  have hbytes : ∀ {n : Nat} {bs : List Byte}, Slice 0 (stmtsCode .empty 0 prog) n bs →
      ∀ {i : Nat} {b : Byte}, bs[i]? = some b → g.byteArray (n + i) = b := by
    intro n bs hslice i b hi
    rw [harray]
    exact (hslice.append_right _).overwrite_eq hi
  constructor
  · intro t n x e h
    obtain ⟨hok, -, hle, hle'⟩ := h.le_final VarTable.empty_ok
    have hx := hnames x (h.assigned_subset x (List.mem_singleton_self x))
    have hi := VarTable.lookup_declare_of_count (Nat.le_trans hle' hcount)
    have hlen := exprCode_length t e
    refine ⟨t.slotFor x, VarTable.lookup_lt hi, hvars ▸ hle x _ hx hi, ?_, ?_⟩
    · refine hbytes h.slice ?_
      rw [stmtCode, List.getElem?_append_right (by omega), hlen, Nat.sub_self]
      rfl
    · rw [Nat.add_assoc]
      refine hbytes h.slice ?_
      rw [stmtCode, List.getElem?_append_right (by omega), hlen, Nat.add_sub_cancel_left]
      rfl
  · intro t₁ n₁ x e t n s p h₁ h hread hlt
    have hx := hnames x (h₁.assigned_subset x (List.mem_singleton_self x))
    obtain ⟨hok, -, hle, -⟩ := h.le_final VarTable.empty_ok
    obtain ⟨i, hi⟩ := h₁.known h hread.lt hlt VarTable.empty_ok hx hcount
    have hload := h.slice.trans ((s.expr_slice t n).trans hread.slice)
    rw [exprCode, hi] at hload
    have hfinal := (hok.le_declareAll _).trans hle x i hx hi
    exact ⟨i, VarTable.lookup_lt hi, hvars ▸ hfinal, hbytes (i := 0) hload rfl, hbytes hload rfl⟩
  · intro x y i hx hy
    exact VarTable.lookup_inj hx hy
  · intro t n s h x i hx hi
    obtain ⟨hok, -, hle, -⟩ := h.le_final VarTable.empty_ok
    rw [hvars]
    exact hle x i hx ((hok.le_declareAll _) x i hx hi)

/-- In a program whose code fits the array, variables never alias exactly when at most 256 of
them are assigned. No identifier is the empty name. -/
theorem neverAlias_iff {mem : Nat → Byte} {statements : List Node} {len : Nat} {prog : List Stmt}
    (hprog : program? statements len = some prog)
    (hnames : ∀ x ∈ Stmt.assignedList prog, x ≠ Name.empty)
    (hfits : Stmt.sizeList .empty prog + 1 ≤ byteArraySize) :
    NeverAlias mem statements len prog ↔ (Stmt.assignedList prog).toFinset.card ≤ 256 := by
  rw [← count_le_iff_card_le hnames]
  constructor
  · rintro ⟨hinside, -⟩
    by_contra hcount
    exact hinside 256 (generateByte_full hprog (Nat.zero_le _) (by omega) (Nat.lt_of_not_le hcount))
  · intro hcount
    obtain ⟨g, hg⟩ := (@generateByte_isOk mem _ _ _ _ hprog (Nat.zero_le _)).mpr ⟨hfits, hcount⟩
    refine ⟨fun i h => ?_, g, hg, slotsKept_of_count hprog hg hnames hcount⟩
    rw [hg] at h
    cases h

/-! ## As many variables as the table holds, and one more -/

/-- A letter, by its number in the alphabet. -/
def letter (k : Nat) : Char := Char.ofNat (97 + k % 26)

theorem letter_ne_nul (k : Nat) : Char.ofNat 0 ≠ letter k := by
  have hall : ∀ j : Fin 26, Char.ofNat 0 ≠ Char.ofNat (97 + j.val) := by decide
  exact hall ⟨k % 26, Nat.mod_lt k (by decide)⟩

/-- The identifiers of two letters, in order. -/
def twoLetters (k : Nat) : Name where
  chars := [letter (k / 26), letter k]
  short := by
    show 2 < 32
    decide
  noNul := by
    rw [List.mem_cons, List.mem_singleton, not_or]
    exact ⟨letter_ne_nul _, letter_ne_nul _⟩

/-- The number of an identifier of two letters. -/
def ofTwoLetters (x : Name) : Nat := x.chars.foldl (fun n c => 26 * n + (c.toNat - 97)) 0

/-- The names of the example are different: their number is read back. -/
theorem ofTwoLetters_twoLetters : ∀ k < 257, ofTwoLetters (twoLetters k) = k := by
  decide +kernel

/-- `aa = 1`, `ab = 1` and so on. -/
def assignments (k : Nat) : List Stmt := (List.range k).map fun i => .assign (twoLetters i) (.num 1)

/-- The program assigns each of the names, in order. -/
theorem assignedList_map (xs : List Name) :
    Stmt.assignedList (xs.map fun x => .assign x (.num 1)) = xs := by
  induction xs with
  | nil => rfl
  | cons x xs ih =>
    rw [List.map_cons, Stmt.assignedList, ih]
    rfl

theorem sizeList_map (xs : List Name) (t : VarTable) :
    Stmt.sizeList t (xs.map fun x => .assign x (.num 1)) = 4 * xs.length := by
  induction xs generalizing t with
  | nil => rfl
  | cons x xs ih =>
    rw [List.map_cons, Stmt.sizeList, ih, List.length_cons]
    show 4 + _ = _
    omega

theorem allBlocksFit_map (xs : List Name) :
    Stmt.AllBlocksFit (xs.map fun x => .assign x (.num 1)) := by
  induction xs with
  | nil => trivial
  | cons x xs ih => exact ⟨trivial, ih⟩

/-- The program of the example over its list of names. -/
theorem assignments_eq (k : Nat) :
    assignments k = ((List.range k).map twoLetters).map fun x => .assign x (.num 1) := by
  rw [assignments, List.map_map]
  rfl

/-- The parser returns a program with 257 variables, whose code fits the array. Code generation
writes behind the table at the last of them. -/
theorem not_neverAlias_assignments : ∃ tokens result, ParserAt tokens result ∧
    program? result.statements result.statementCount = some (assignments 257) ∧
    (∀ x ∈ Stmt.assignedList (assignments 257), x ≠ Name.empty) ∧
    Stmt.sizeList .empty (assignments 257) + 1 ≤ byteArraySize ∧
    generateByte (fun _ => 0) .empty result.statements result.statementCount =
      .error (.varNamesOverflow 256) ∧
    ¬ NeverAlias (fun _ => 0) result.statements result.statementCount (assignments 257) := by
  have hassigned : Stmt.assignedList (assignments 257) = (List.range 257).map twoLetters := by
    rw [assignments_eq, assignedList_map]
  have hsize : Stmt.sizeList .empty (assignments 257) = 4 * 257 := by
    rw [assignments_eq, sizeList_map, List.length_map, List.length_range]
  have hnames : ∀ x ∈ Stmt.assignedList (assignments 257), x ≠ Name.empty := by
    rw [hassigned]
    rintro x hx rfl
    obtain ⟨k, -, hk⟩ := List.mem_map.mp hx
    cases congrArg Name.chars hk
  -- no two of the names are the same
  have hcard : (Stmt.assignedList (assignments 257)).toFinset.card = 257 := by
    rw [hassigned, List.toFinset_card_of_nodup, List.length_map, List.length_range]
    refine (List.nodup_range).map_on fun i hi j hj h => ?_
    rw [← ofTwoLetters_twoLetters i (List.mem_range.mp hi), h,
      ofTwoLetters_twoLetters j (List.mem_range.mp hj)]
  have hcount : 256 < (VarTable.empty.declareAll (Stmt.assignedList (assignments 257))).count := by
    refine Nat.lt_of_not_le fun hle => ?_
    have hle := (count_le_iff_card_le hnames).mp hle
    omega
  have hfit : Stmt.AllBlocksFit (assignments 257) := by
    rw [assignments_eq]
    exact allBlocksFit_map _
  have hdrop : (printProgram (assignments 257)).drop 0 =
    Stmt.tokensList (assignments 257) ++ (Token.tokEof :: []) := rfl
  obtain ⟨nodes, hloop, hnodes⟩ := Stmt.tokensList_parserLoopAt (assignments 257) 128 [] 0
    hfit (by decide) (by decide) hdrop
  have hprog : program? ([] ++ nodes) (0 + (assignments 257).length) = some (assignments 257) := by
    rw [List.nil_append, Nat.zero_add]
    exact hnodes.stmtsUpTo?
  have hfits : Stmt.sizeList .empty (assignments 257) + 1 ≤ byteArraySize := by
    rw [hsize]
    decide
  have hstop := @generateByte_full (fun _ => 0) _ _ _ _ hprog (Nat.zero_le _) (by omega) hcount
  refine ⟨_, _, hloop, hprog, hnames, hfits, hstop, ?_⟩
  rintro ⟨hinside, -⟩
  exact hinside 256 hstop

/-- One variable, stored and loaded. -/
theorem neverAlias_one : NeverAlias (fun _ => 0)
    [{ type := some .nodeAssign, left := .ref { type := some .nodeIdent, name := some .x },
       right := .ref { type := some .nodeNum, value := some 3 } },
     { type := some .nodePrint, left := .ref { type := some .nodeIdent, name := some .x } }] 2
    [.assign .x (.num 3), .print (.ident .x)] := by
  refine (neverAlias_iff rfl ?_ (by decide)).mpr (by decide)
  intro x hx
  obtain rfl : x = .x := List.mem_singleton.mp hx
  decide

end Bytecode

end SystemsProjects

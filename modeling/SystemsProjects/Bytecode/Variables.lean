import SystemsProjects.Bytecode.Emission

/-!
# The variable table while code is generated

Declaring a variable never moves another one, so the slots that the code of a program
uses can all be read off the table at the end (`VarTable.Le`). A table stays well formed
(`VarTable.Ok`): its entries from `count` on are empty, which is why a name that is not
empty is never found among them.

`Stmt.Compilable` collects what a program must satisfy for its code to mean what the
program means: literals that fit a byte, names that are not empty, and identifiers that
are read only after some assignment in the order of `walk`.

The conditions on literals and names are kept as one predicate with two parameters
(`Expr.ForAll`), decidable when these are, so that the conditions of an example program are
checked by computation.
-/

namespace SystemsProjects

namespace Bytecode

/-! ## Lookup -/

/-- A name is found at the first slot that holds it. -/
theorem VarTable.lookup_eq_some {t : VarTable} {x : Name} {i : Nat} :
    t.lookup x = some i ↔ i < 256 ∧ t.names i = x ∧ ∀ j, j < i → t.names j ≠ x := by
  unfold VarTable.lookup
  rw [List.find?_range_eq_some, List.mem_range]
  simp only [decide_eq_true_eq, Bool.not_eq_true', decide_eq_false_iff_not]
  constructor
  · rintro ⟨hx, hi, hj⟩
    exact ⟨hi, hx, hj⟩
  · rintro ⟨hi, hx, hj⟩
    exact ⟨hx, hi, hj⟩

theorem VarTable.lookup_eq_none {t : VarTable} {x : Name} :
    t.lookup x = none ↔ ∀ i, i < 256 → t.names i ≠ x := by
  unfold VarTable.lookup
  rw [List.find?_eq_none]
  simp only [List.mem_range, decide_eq_true_eq]

theorem VarTable.lookup_lt {t : VarTable} {x : Name} {i : Nat} (h : t.lookup x = some i) :
    i < 256 := (VarTable.lookup_eq_some.mp h).1

/-- Two names never share a slot. -/
theorem VarTable.lookup_inj {t : VarTable} {x y : Name} {i : Nat} (hx : t.lookup x = some i)
    (hy : t.lookup y = some i) : x = y := by
  obtain ⟨_, rfl, _⟩ := VarTable.lookup_eq_some.mp hx
  obtain ⟨_, rfl, _⟩ := VarTable.lookup_eq_some.mp hy
  rfl

/-! ## Declaring variables -/

/-- The entries that are not in use are empty. -/
def VarTable.Ok (t : VarTable) : Prop := ∀ i, t.count ≤ i → t.names i = Name.empty

theorem VarTable.empty_ok : VarTable.empty.Ok := fun _ _ => rfl

/-- Declaring a name writes below the new count only. -/
theorem VarTable.Ok.declare {t : VarTable} (h : t.Ok) (x : Name) : (t.declare x).Ok := by
  unfold VarTable.declare
  cases t.lookup x with
  | some i => exact h
  | none =>
    intro i hi
    dsimp only at hi ⊢
    rw [Function.update_of_ne (by omega)]
    exact h i (by omega)

theorem VarTable.Ok.declareAll {t : VarTable} (h : t.Ok) (xs : List Name) :
    (t.declareAll xs).Ok := by
  induction xs generalizing t with
  | nil => exact h
  | cons x xs ih => exact ih (h.declare x)

theorem VarTable.count_declare (t : VarTable) (x : Name) :
    (t.declare x).count ≤ t.count + 1 := by
  unfold VarTable.declare
  cases t.lookup x with
  | some i => exact Nat.le_succ _
  | none => exact Nat.le_refl _

theorem VarTable.count_declareAll (t : VarTable) (xs : List Name) :
    (t.declareAll xs).count ≤ t.count + xs.length := by
  induction xs generalizing t with
  | nil => exact Nat.le_refl _
  | cons x xs ih =>
    have htail := ih (t.declare x)
    have hhead := t.count_declare x
    rw [List.length_cons]
    show ((t.declare x).declareAll xs).count ≤ _
    omega

/-- Every variable of `t` has the same slot in `T`. -/
def VarTable.Le (t T : VarTable) : Prop :=
  ∀ x i, x ≠ Name.empty → t.lookup x = some i → T.lookup x = some i

theorem VarTable.Le.refl (t : VarTable) : t.Le t := fun _ _ _ h => h

theorem VarTable.Le.trans {t₁ t₂ t₃ : VarTable} (h : t₁.Le t₂) (h' : t₂.Le t₃) : t₁.Le t₃ :=
  fun x i hx hi => h' x i hx (h x i hx hi)

/-- A declaration moves no name that has a slot. -/
theorem VarTable.Ok.le_declare {t : VarTable} (h : t.Ok) (y : Name) : t.Le (t.declare y) := by
  intro x i hx hi
  unfold VarTable.declare
  cases hy : t.lookup y with
  | some j => exact hi
  | none =>
    obtain ⟨hlt, hname, hfirst⟩ := VarTable.lookup_eq_some.mp hi
    have hyx : y ≠ x := by
      rintro rfl
      rw [hi] at hy
      cases hy
    -- the new entry is behind all entries in use, so it is not the one of `x`
    have hfree : i ≠ t.count := by
      rintro rfl
      exact hx (hname.symm.trans (h _ (Nat.le_refl _)))
    refine VarTable.lookup_eq_some.mpr ⟨hlt, ?_, fun j hj => ?_⟩
    · dsimp only
      rw [Function.update_of_ne hfree, hname]
    · dsimp only
      by_cases hcount : j = t.count
      · subst hcount
        rw [Function.update_self]
        exact hyx
      · rw [Function.update_of_ne hcount]
        exact hfirst j hj

theorem VarTable.Ok.le_declareAll {t : VarTable} (h : t.Ok) (xs : List Name) :
    t.Le (t.declareAll xs) := by
  induction xs generalizing t with
  | nil => exact .refl t
  | cons x xs ih => exact (h.le_declare x).trans (ih (h.declare x))

/-- While there is room, a declared variable is found at the slot `OP_STORE` got. -/
theorem VarTable.lookup_declare {t : VarTable} {x : Name} (hcount : t.count < 256) :
    (t.declare x).lookup x = some (t.slotFor x) := by
  unfold VarTable.declare VarTable.slotFor
  cases hx : t.lookup x with
  | some i => exact hx
  | none =>
    have hnone := VarTable.lookup_eq_none.mp hx
    refine VarTable.lookup_eq_some.mpr ⟨hcount, Function.update_self _ _ _, fun j hj => ?_⟩
    have hj' : j < t.count := hj
    dsimp only
    rw [Function.update_of_ne (by omega)]
    exact hnone j (by omega)

/-! ## Programs whose code means what they mean -/

/-- Every literal satisfies `lit`, every identifier satisfies `var`. -/
def Expr.ForAll (lit : CInt → Prop) (var : Name → Prop) : Expr → Prop
  | .num v => lit v
  | .ident x => var x
  | .bin _ l r => l.ForAll lit var ∧ r.ForAll lit var

instance Expr.decidableForAll {lit : CInt → Prop} {var : Name → Prop} [DecidablePred lit]
    [DecidablePred var] : (e : Expr) → Decidable (e.ForAll lit var)
  | .num v => inferInstanceAs (Decidable (lit v))
  | .ident x => inferInstanceAs (Decidable (var x))
  | .bin _ l r =>
    have : Decidable (l.ForAll lit var) := Expr.decidableForAll l
    have : Decidable (r.ForAll lit var) := Expr.decidableForAll r
    inferInstanceAs (Decidable (l.ForAll lit var ∧ r.ForAll lit var))

/-- Literals fit a byte, and the identifiers are among `known`. -/
def Expr.Compilable (known : List Name) (e : Expr) : Prop :=
  e.ForAll (fun v => v.toNat < 256) (fun x => x ∈ known)

instance (known : List Name) (e : Expr) : Decidable (e.Compilable known) :=
  Expr.decidableForAll e

mutual

/-- Literals fit a byte, assigned names are not empty, and every identifier that is read
is among `known` or was assigned further up in the order of `walk`. -/
def Stmt.Compilable (known : List Name) : Stmt → Prop
  | .assign x e => x ≠ Name.empty ∧ e.Compilable known
  | .print e => e.Compilable known
  | .ifStmt c b => c.Compilable known ∧ Stmt.AllCompilable known b
  | .whileStmt c b => c.Compilable known ∧ Stmt.AllCompilable known b

def Stmt.AllCompilable (known : List Name) : List Stmt → Prop
  | [] => True
  | s :: ss => s.Compilable known ∧ Stmt.AllCompilable (known ++ s.assigned) ss

end

mutual

instance Stmt.decidableCompilable (known : List Name) : (s : Stmt) →
    Decidable (s.Compilable known)
  | .assign x e => inferInstanceAs (Decidable (x ≠ Name.empty ∧ e.Compilable known))
  | .print e => inferInstanceAs (Decidable (e.Compilable known))
  | .ifStmt c b =>
    have := Stmt.decidableAllCompilable known b
    inferInstanceAs (Decidable (c.Compilable known ∧ Stmt.AllCompilable known b))
  | .whileStmt c b =>
    have := Stmt.decidableAllCompilable known b
    inferInstanceAs (Decidable (c.Compilable known ∧ Stmt.AllCompilable known b))

instance Stmt.decidableAllCompilable (known : List Name) : (ss : List Stmt) →
    Decidable (Stmt.AllCompilable known ss)
  | [] => inferInstanceAs (Decidable True)
  | s :: ss =>
    have := Stmt.decidableCompilable known s
    have := Stmt.decidableAllCompilable (known ++ s.assigned) ss
    inferInstanceAs
      (Decidable (s.Compilable known ∧ Stmt.AllCompilable (known ++ s.assigned) ss))

end

mutual

/-- A compilable statement assigns no empty name. -/
theorem Stmt.Compilable.assigned_ne : ∀ {s : Stmt} {known : List Name}, s.Compilable known →
    ∀ x ∈ s.assigned, x ≠ Name.empty
  | .assign y e, known, h, x, hx => by
    rw [Stmt.assigned, List.mem_singleton] at hx
    rw [hx]
    exact h.1
  | .print e, known, h, x, hx => by cases hx
  | .ifStmt c b, known, h, x, hx => Stmt.AllCompilable.assigned_ne h.2 x hx
  | .whileStmt c b, known, h, x, hx => Stmt.AllCompilable.assigned_ne h.2 x hx

theorem Stmt.AllCompilable.assigned_ne : ∀ {ss : List Stmt} {known : List Name},
    Stmt.AllCompilable known ss → ∀ x ∈ Stmt.assignedList ss, x ≠ Name.empty
  | [], known, h, x, hx => by cases hx
  | s :: ss, known, h, x, hx => by
    rcases List.mem_append.mp hx with hx | hx
    · exact Stmt.Compilable.assigned_ne h.1 x hx
    · exact Stmt.AllCompilable.assigned_ne h.2 x hx

end

/-! ## Slots of assigned variables -/

mutual

/-- Each assignment takes at least two bytes of code. -/
theorem Stmt.length_assigned_le : ∀ (s : Stmt) (t : VarTable) (start : Nat),
    s.assigned.length ≤ (stmtCode t start s).length
  | .assign x e, t, start => by
    rw [Stmt.assigned, stmtCode, List.length_append, List.length_singleton]
    simp only [List.length_cons]
    omega
  | .print e, t, start => Nat.zero_le _
  | .ifStmt c b, t, start => by
    have hb := Stmt.length_assignedList_le b t (start + (exprCode t c).length + 2)
    rw [stmtCode, ifCode, List.length_append, List.length_cons, List.length_cons]
    exact Nat.le_trans hb (by omega)
  | .whileStmt c b, t, start => by
    have hb := Stmt.length_assignedList_le b t (start + (exprCode t c).length + 2)
    rw [stmtCode, whileCode, List.length_append, List.length_cons, List.length_cons,
      List.length_append]
    exact Nat.le_trans hb (by omega)

/-- Statements assign no more names than they have bytes of code. -/
theorem Stmt.length_assignedList_le : ∀ (ss : List Stmt) (t : VarTable) (start : Nat),
    (Stmt.assignedList ss).length ≤ (stmtsCode t start ss).length
  | [], t, start => Nat.zero_le _
  | s :: ss, t, start => by
    have hs := Stmt.length_assigned_le s t start
    have hss := Stmt.length_assignedList_le ss (t.declareAll s.assigned)
      (start + (stmtCode t start s).length)
    rw [Stmt.assignedList, stmtsCode, List.length_append, List.length_append]
    omega

end

/-- The variables of `known` have slots. -/
def VarTable.Knows (t : VarTable) (known : List Name) : Prop :=
  ∀ x ∈ known, x ≠ Name.empty ∧ ∃ i, t.lookup x = some i

/-- Declared names are known, as long as the table has room for them. -/
theorem VarTable.Knows.declareAll {t : VarTable} {known : List Name} (h : t.Knows known)
    (hok : t.Ok) {xs : List Name} (hxs : ∀ x ∈ xs, x ≠ Name.empty)
    (hcount : t.count + xs.length ≤ 256) : (t.declareAll xs).Knows (known ++ xs) := by
  induction xs generalizing t known with
  | nil => rwa [List.append_nil]
  | cons y ys ih =>
    have hy : y ≠ Name.empty := hxs y (List.mem_cons_self ..)
    rw [List.length_cons] at hcount
    have hroom : t.count < 256 := by omega
    -- one name: the others keep their slots
    have hstep : (t.declare y).Knows (known ++ [y]) := by
      intro x hx
      rcases List.mem_append.mp hx with hx | hx
      · obtain ⟨hne, i, hi⟩ := h x hx
        exact ⟨hne, i, hok.le_declare y x i hne hi⟩
      · rw [List.mem_singleton] at hx
        rw [hx]
        exact ⟨hy, _, VarTable.lookup_declare hroom⟩
    have hlen : (t.declare y).count + ys.length ≤ 256 := by
      have hd := t.count_declare y
      omega
    have hrest := ih hstep (hok.declare y)
      (fun x hx => hxs x (List.mem_cons_of_mem y hx)) hlen
    rw [List.append_assoc, List.singleton_append] at hrest
    exact hrest

end Bytecode

end SystemsProjects

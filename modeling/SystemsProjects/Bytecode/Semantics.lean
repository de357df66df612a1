import Mathlib.Logic.Function.Basic
import SystemsProjects.Lib.Fuel
import SystemsProjects.Bytecode.Ast

/-!
# What a source program means

The meaning the compiler is compared with, stated on source trees alone.

- `Expr.eval`: the value of an expression in a store. Addition, subtraction and
  multiplication wrap, comparisons give 0 or 1, and division truncates; it stops on a
  zero divisor and where the quotient is no `int`.
- `Stmt.exec`, `Stmt.execList`: statements on a store and the numbers printed so far.
  The fuel bounds the rounds of each loop; an exhausted loop is `out`.
- `Terminates`, `Stops`: how a program ends, started with every variable 0.

The rounds of a loop are bounded by fuel, and a program means something only when some amount
suffices. More fuel changes no result that was not `out` (`Stmt.exec_mono`), so a program
terminates in at most one state.
-/

namespace SystemsProjects

namespace Bytecode

open Fueled

/-- The values of the variables. -/
abbrev Store := Name → CInt

/-- The ways an expression can fail to have a value. -/
inductive SourceStop where
  | divisionByZero
  | divisionOverflow
  deriving DecidableEq

/-- The value of `a op b`. -/
def BinOp.apply : BinOp → CInt → CInt → Except SourceStop CInt
  | .add, a, b => .ok (a + b)
  | .sub, a, b => .ok (a - b)
  | .mul, a, b => .ok (a * b)
  | .div, a, b =>
    if b = 0 then .error .divisionByZero
    else if a = BitVec.intMin 32 ∧ b = -1 then .error .divisionOverflow
    else .ok (a.sdiv b)
  | .eqeq, a, b => .ok (if a = b then 1 else 0)
  | .gt, a, b => .ok (if b.slt a then 1 else 0)
  | .lt, a, b => .ok (if a.slt b then 1 else 0)

/-- The value of an expression; the left operand is evaluated first. -/
def Expr.eval (S : Store) : Expr → Except SourceStop CInt
  | .num v => .ok v
  | .ident x => .ok (S x)
  | .bin op l r => do
    let a ← l.eval S
    let b ← r.eval S
    op.apply a b

/-- A point in the run of a program: the store and what has been printed. -/
structure Source where
  store : Store
  printed : List CInt

/-- The start of a run. -/
def Source.init : Source := ⟨fun _ => 0, []⟩

/-- A step of a run. A run that stops keeps what it has printed. -/
abbrev Ran := Fueled (SourceStop × List CInt)

/-- A result, as a step of a run that has printed `P`. -/
def withPrints {α : Type} (P : List CInt) : Except SourceStop α → Ran α
  | .ok v => .done v
  | .error i => .stop (i, P)

/-- The prints in front of a fault are those at its start. -/
theorem withPrints_bind {α β : Type} (P : List CInt) (r : Except SourceStop α)
    (k : α → Except SourceStop β) :
    withPrints P (r >>= k) = withPrints P r >>= fun a => withPrints P (k a) := by
  cases r with
  | ok a => rfl
  | error i => rfl

/-- The value of an expression at a point of a run. -/
def Source.eval (σ : Source) (e : Expr) : Ran CInt := withPrints σ.printed (e.eval σ.store)

/-- At most `n` rounds of `while cond { body }`. -/
def whileLoop (cond : Source → Ran CInt) (body : Source → Ran Source) :
    Nat → Source → Ran Source
  | 0, _ => .out
  | n + 1, σ => do
    let v ← cond σ
    if v ≠ 0 then do
      let σ ← body σ
      whileLoop cond body n σ
    else .done σ

mutual

/-- A statement, with at most `n` rounds for each loop. -/
def Stmt.exec (n : Nat) : Stmt → Source → Ran Source
  | .assign x e, σ => do
    let v ← σ.eval e
    return { σ with store := Function.update σ.store x v }
  | .print e, σ => do
    let v ← σ.eval e
    return { σ with printed := σ.printed ++ [v] }
  | .ifStmt c b, σ => do
    let v ← σ.eval c
    if v ≠ 0 then Stmt.execList n b σ else .done σ
  | .whileStmt c b, σ =>
    whileLoop (fun σ => σ.eval c) (fun σ => Stmt.execList n b σ) n σ

/-- Statements one after the other. -/
def Stmt.execList (n : Nat) : List Stmt → Source → Ran Source
  | [], σ => .done σ
  | s :: ss, σ => do
    let σ ← s.exec n σ
    Stmt.execList n ss σ

end

/-- The run of `prog` terminates, having printed `P`, with the final store `S`. -/
def Terminates (prog : List Stmt) (P : List CInt) (S : Store) : Prop :=
  Yields (fun n => Stmt.execList n prog .init) ⟨S, P⟩

/-- The run of `prog` stops with `i`, having printed `P`. -/
def Stops (prog : List Stmt) (i : SourceStop) (P : List CInt) : Prop :=
  ∃ n, Stmt.execList n prog .init = .stop (i, P)

/-! ## Names -/

mutual

/-- The names a statement assigns, in the order of `walk`. -/
def Stmt.assigned : Stmt → List Name
  | .assign x _ => [x]
  | .print _ => []
  | .ifStmt _ b => Stmt.assignedList b
  | .whileStmt _ b => Stmt.assignedList b

/-- The names that statements assign, in their order. -/
def Stmt.assignedList : List Stmt → List Name
  | [] => []
  | s :: ss => s.assigned ++ Stmt.assignedList ss

end

/-- A variable that the body does not change is not changed by the loop, by induction on its rounds.
-/
theorem whileLoop_frame {cond : Source → Ran CInt} {body : Source → Ran Source} {x : Name}
    (hbody : ∀ σ σ', body σ = .done σ' → σ'.store x = σ.store x) (n : Nat) {σ σ' : Source}
    (h : whileLoop cond body n σ = .done σ') : σ'.store x = σ.store x := by
  induction n generalizing σ with
  | zero => cases h
  | succ n ih =>
    obtain ⟨v, _, h⟩ := bind_eq_done.mp h
    by_cases hv : v ≠ 0
    · rw [if_pos hv] at h
      obtain ⟨σ₁, h₁, h⟩ := bind_eq_done.mp h
      rw [ih h, hbody σ σ₁ h₁]
    · rw [if_neg hv] at h
      cases h
      rfl

mutual

/-- A statement leaves the variables alone that it does not assign. -/
theorem Stmt.exec_frame {n : Nat} {x : Name} : ∀ (s : Stmt) {σ σ' : Source},
    x ∉ s.assigned → s.exec n σ = .done σ' → σ'.store x = σ.store x
  | .assign y e, σ, σ', hx, h => by
    obtain ⟨v, _, h⟩ := bind_eq_done.mp h
    cases h
    have hxy : x ≠ y := fun heq => hx (List.mem_singleton.mpr heq)
    exact Function.update_of_ne hxy v σ.store
  | .print e, σ, σ', hx, h => by
    obtain ⟨v, _, h⟩ := bind_eq_done.mp h
    cases h
    rfl
  | .ifStmt c b, σ, σ', hx, h => by
    obtain ⟨v, _, h⟩ := bind_eq_done.mp h
    by_cases hv : v ≠ 0
    · rw [if_pos hv] at h
      exact Stmt.execList_frame b hx h
    · rw [if_neg hv] at h
      cases h
      rfl
  | .whileStmt c b, σ, σ', hx, h =>
    whileLoop_frame (fun σ σ' h => Stmt.execList_frame b hx h) n h

theorem Stmt.execList_frame {n : Nat} {x : Name} : ∀ (ss : List Stmt) {σ σ' : Source},
    x ∉ Stmt.assignedList ss → Stmt.execList n ss σ = .done σ' → σ'.store x = σ.store x
  | [], σ, σ', hx, h => by
    cases h
    rfl
  | s :: ss, σ, σ', hx, h => by
    obtain ⟨σ₁, h₁, h⟩ := bind_eq_done.mp h
    rw [Stmt.assignedList, List.mem_append, not_or] at hx
    rw [Stmt.execList_frame ss hx.2 h, Stmt.exec_frame s hx.1 h₁]

end

/-! ## The rounds allowed do not matter -/

/-- More rounds, and more fuel for the body, change no result. -/
theorem whileLoop_approx {cond : Source → Ran CInt} {body body' : Source → Ran Source}
    (hbody : ∀ σ, Approx (body σ) (body' σ)) {n m : Nat} (h : n ≤ m) (σ : Source) :
    Approx (whileLoop cond body n σ) (whileLoop cond body' m σ) := by
  induction n generalizing m σ with
  | zero => exact .out_left _
  | succ n ih =>
    cases m with
    | zero => exact absurd h (Nat.not_succ_le_zero n)
    | succ m =>
      refine .bind (.refl _) fun v => ?_
      by_cases hv : v ≠ 0
      · rw [if_pos hv, if_pos hv]
        exact .bind (hbody σ) fun σ' => ih (Nat.le_of_succ_le_succ h) σ'
      · rw [if_neg hv, if_neg hv]
        exact .refl _

mutual

/-- More fuel does not change how a statement ends. -/
theorem Stmt.exec_mono : ∀ (s : Stmt) (σ : Source), FuelMono fun n => s.exec n σ
  | .assign x e, σ, n => .refl _
  | .print e, σ, n => .refl _
  | .ifStmt c b, σ, n => by
    refine .bind (.refl _) fun v => ?_
    by_cases hv : v ≠ 0
    · rw [if_pos hv, if_pos hv]
      exact Stmt.execList_mono b σ n
    · rw [if_neg hv, if_neg hv]
      exact .refl _
  | .whileStmt c b, σ, n =>
    whileLoop_approx (fun σ => Stmt.execList_mono b σ n) (Nat.le_succ n) σ

theorem Stmt.execList_mono : ∀ (ss : List Stmt) (σ : Source),
    FuelMono fun n => Stmt.execList n ss σ
  | [], _, _ => .refl _
  | s :: ss, σ, n => .bind (Stmt.exec_mono s σ n) fun σ' => Stmt.execList_mono ss σ' n

end

/-- A program that terminates does so in one way. -/
theorem Terminates.unique {prog : List Stmt} {P P' : List CInt} {S S' : Store}
    (h : Terminates prog P S) (h' : Terminates prog P' S') : P = P' ∧ S = S' := by
  have heq := Yields.unique (Stmt.execList_mono prog .init) h h'
  cases heq
  exact ⟨rfl, rfl⟩

end Bytecode

end SystemsProjects

/-!
# Sequences of operations

A data type is a state, what each operation returns, and the state it leaves. `Operations.run`
does a sequence of operations and collects the results.

- `Operations.Admits`: each operation meets its precondition in the state where it is called.
- `Operations.run_refines`: where related states give the same results, one operation at a time
  and under the precondition of the abstract state, they do so for every sequence.

The abstract state is given with its own operations, and the relation may be anything; the
refinement lemma is the induction over the sequence.
-/

namespace SystemsProjects

universe u v w x

/-- States `σ`, operations `α`, results `ρ`. -/
structure Operations (σ : Type u) (α : Type v) (ρ : Type w) where
  result : σ → α → ρ
  next : σ → α → σ

namespace Operations

variable {σ : Type u} {τ : Type x} {α : Type v} {ρ : Type w}

/-- The results of the operations, and the state they lead to. -/
def run (O : Operations σ α ρ) (s : σ) : List α → List ρ × σ
  | [] => ([], s)
  | a :: as =>
    let (results, s') := O.run (O.next s a) as
    (O.result s a :: results, s')

/-- Each operation meets the precondition when its turn comes. -/
def Admits (O : Operations σ α ρ) (pre : σ → α → Prop) (s : σ) : List α → Prop
  | [] => True
  | a :: as => pre s a ∧ O.Admits pre (O.next s a) as

variable {O : Operations σ α ρ} {O' : Operations τ α ρ} {R : σ → τ → Prop}
  {pre : τ → α → Prop}

/-- Refinement of one operation gives that of a sequence. -/
theorem run_refines
    (hstep : ∀ s t a, R s t → pre t a → O.result s a = O'.result t a ∧ R (O.next s a) (O'.next t a))
    {as : List α} {s : σ} {t : τ} (h : R s t) (hpre : O'.Admits pre t as) :
    (O.run s as).1 = (O'.run t as).1 ∧ R (O.run s as).2 (O'.run t as).2 := by
  induction as generalizing s t with
  | nil => exact ⟨rfl, h⟩
  | cons a as ih =>
    obtain ⟨hresult, hnext⟩ := hstep s t a h hpre.1
    obtain ⟨hresults, hlast⟩ := ih hnext hpre.2
    refine ⟨?_, hlast⟩
    show O.result s a :: (O.run (O.next s a) as).1 = O'.result t a :: (O'.run (O'.next t a) as).1
    rw [hresult, hresults]

end Operations

end SystemsProjects

import Mathlib.Data.List.Forall2
import SystemsProjects.Bytecode.ParserRules

/-!
# Flat chains of factors

Seen from outside its parentheses, a comparison is a chain
`factor (operator factor)*`. The parser reads every such chain to its end, so
which tokens it consumes does not depend on precedence; only the tree does.

- `assemble`: the tree the parser builds from a chain. Reading left to right it
  keeps two contexts: `inner`, the sum that the current term will complete, and
  `outer`, everything that the current `parse_expression` call will return to. A
  `*` or `/` opens a new expression inside the old one, and only a comparison
  operator closes it again.
- `ChainAt.comparisonAt`: on a chain, `parse_comparison` returns exactly that
  tree and stops after the last factor.

The lemma behind it is `TailAt.run`, an induction on the chain. Three loops are open at any
time, those of `parse_term`, `parse_expression` and `parse_comparison`, and an operator is taken
by the innermost loop that handles it. What the loops further out will do with the result is a
parameter (`ActsAs`), because behind a `*` another `parse_expression` is on the way.
-/

namespace SystemsProjects

namespace Bytecode

/-- The layer of an operator: comparisons bind loosest. -/
def BinOp.level : BinOp → Nat
  | .eqeq | .gt | .lt => 0
  | .add | .sub => 1
  | .mul | .div => 2

/-- The operator a token spells. -/
def Token.binOp? : Token → Option BinOp
  | .tokPlus => some .add
  | .tokMinus => some .sub
  | .tokStar => some .mul
  | .tokSlash => some .div
  | .tokEqeq => some .eqeq
  | .tokGt => some .gt
  | .tokLt => some .lt
  | _ => none

@[simp] theorem BinOp.binOp?_token (op : BinOp) : op.token.binOp? = some op := by
  cases op <;> rfl

/-- Each loop handles exactly the operators of its layer. -/
theorem comparisonNode_token (op : BinOp) :
    comparisonNode op.token = if op.level = 0 then some op.nodeType else none := by
  cases op <;> rfl

/-- The loop of `parse_expression` goes on at `+` and `-` only. -/
theorem expressionNode_token (op : BinOp) :
    expressionNode op.token = if op.level = 1 then some op.nodeType else none := by
  cases op <;> rfl

theorem termNode_token (op : BinOp) :
    termNode op.token = if op.level = 2 then some op.nodeType else none := by
  cases op <;> rfl

/-- A token that is no operator ends every loop. -/
theorem comparisonNode_eq_none {t : Token} (h : t.binOp? = none) :
    comparisonNode t = none := by
  cases t <;> first | rfl | cases h

theorem expressionNode_eq_none {t : Token} (h : t.binOp? = none) :
    expressionNode t = none := by
  cases t <;> first | rfl | cases h

theorem termNode_eq_none {t : Token} (h : t.binOp? = none) : termNode t = none := by
  cases t <;> first | rfl | cases h

theorem BinOp.level_cases (op : BinOp) : op.level = 0 ∨ op.level = 1 ∨ op.level = 2 := by
  cases op <;> simp [BinOp.level]

/-! ## The tree of a chain -/

/-- The tree built from the factor `f` and the rest of its chain, inside the
contexts `inner` and `outer`. -/
def assemble {α : Type} (bin : BinOp → α → α → α) (outer inner : α → α) (f : α) :
    List (BinOp × α) → α
  | [] => outer (inner f)
  | (op, g) :: rest =>
    if op.level = 0 then assemble bin (bin op (outer (inner f))) id g rest
    else if op.level = 1 then assemble bin outer (bin op (inner f)) g rest
    else assemble bin (fun x => outer (inner (bin op f x))) id g rest

section Assemble

variable {α : Type} {bin : BinOp → α → α → α} {op : BinOp} {g : α}
  {rest : List (BinOp × α)}

/-- At a comparison both the term and the sum in front are closed. -/
theorem assemble_comparison (hop : op.level = 0) (outer inner : α → α) (f : α) :
    assemble bin outer inner f ((op, g) :: rest)
      = assemble bin (bin op (outer (inner f))) id g rest := by
  rw [assemble, if_pos hop]

/-- At a `+` or `-` the term in front is closed, the comparison stays open. -/
theorem assemble_additive (hop : op.level = 1) (outer inner : α → α) (f : α) :
    assemble bin outer inner f ((op, g) :: rest)
      = assemble bin outer (bin op (inner f)) g rest := by
  rw [assemble, if_neg (by omega), if_pos hop]

/-- At a `*` or `/` the factor in front is taken at once, and everything behind becomes its right
operand. -/
theorem assemble_product (hop : op.level = 2) (outer inner : α → α) (f : α) :
    assemble bin outer inner f ((op, g) :: rest)
      = assemble bin (fun x => outer (inner (bin op f x))) id g rest := by
  rw [assemble, if_neg (by omega), if_neg (by omega)]

end Assemble

/-- The node `parse_*` allocates for an operator. -/
def opNode (op : BinOp) : Node → Node → Node := binaryNode op.nodeType

/-- A relation kept by the operators is kept by the whole tree. -/
theorem assemble_rel {α β : Type} {binA : BinOp → α → α → α} {binB : BinOp → β → β → β}
    {R : α → β → Prop}
    (hbin : ∀ op {a a' b b'}, R a b → R a' b' → R (binA op a a') (binB op b b'))
    {restA : List (BinOp × α)} {restB : List (BinOp × β)}
    (hrest : List.Forall₂ (fun p q => p.1 = q.1 ∧ R p.2 q.2) restA restB) :
    ∀ {outerA innerA : α → α} {outerB innerB : β → β} {f : α} {g : β},
      (∀ {a b}, R a b → R (outerA a) (outerB b)) →
      (∀ {a b}, R a b → R (innerA a) (innerB b)) → R f g →
      R (assemble binA outerA innerA f restA) (assemble binB outerB innerB g restB) := by
  induction hrest with
  | nil =>
    intro outerA innerA outerB innerB f g hout hin hf
    exact hout (hin hf)
  | @cons p q restA restB hpq _ ih =>
    intro outerA innerA outerB innerB f g hout hin hf
    obtain ⟨op, a⟩ := p
    obtain ⟨op', b⟩ := q
    obtain ⟨hop, hab⟩ := hpq
    dsimp only at hop hab
    subst hop
    -- the contexts grow alike on both sides
    rcases op.level_cases with hl | hl | hl
    · rw [assemble_comparison hl, assemble_comparison hl]
      exact ih (fun h => hbin op (hout (hin hf)) h) (fun h => h) hab
    · rw [assemble_additive hl, assemble_additive hl]
      exact ih hout (fun h => hbin op (hin hf) h) hab
    · rw [assemble_product hl, assemble_product hl]
      exact ih (fun h => hout (hin (hbin op hf h))) (fun h => h) hab

/-! ## Chains in a token list -/

variable {tokens : List Token}

/-- From the cursor `k`, after a factor, the rest of the chain is `rest` and
ends at `j`, in front of a token that is no operator. -/
inductive TailAt (tokens : List Token) : Nat → List (BinOp × Node) → Nat → Prop where
  | nil {k : Nat} {t : Token} (ht : tokens[k]? = some t) (hop : t.binOp? = none) :
    TailAt tokens k [] k
  | cons {k k' j : Nat} {op : BinOp} {g : Node} {rest : List (BinOp × Node)}
    (hop : tokens[k]? = some op.token) (hg : FactorAt tokens (k + 1) g k')
    (hrest : TailAt tokens k' rest j) : TailAt tokens k ((op, g) :: rest) j

/-- At `i` stands the chain that begins with `f` and goes on with `rest`. -/
def ChainAt (tokens : List Token) (i : Nat) (f : Node) (rest : List (BinOp × Node))
    (j : Nat) : Prop :=
  ∃ k, FactorAt tokens i f k ∧ TailAt tokens k rest j

/-- What the callers of the current `parse_expression` do with its answer:
`after x k r` says that, given `x` with the cursor at `k`, they end with `r`.
They act as `outer` when they hand `outer x` to the comparison loop. -/
def ActsAs (tokens : List Token) (after : Node → Nat → Node × Nat → Prop)
    (outer : Node → Node) : Prop :=
  ∀ x k r t, tokens[k]? = some t → expressionNode t = none → termNode t = none →
    ComparisonLoopAt tokens (outer x) k r.1 r.2 → after x k r

/-- The run of the parser from behind the factor `f` to the end of its chain: the
loop of `parse_term`, the loop of `parse_expression`, then the callers. -/
theorem TailAt.run {k j : Nat} {rest : List (BinOp × Node)}
    (h : TailAt tokens k rest j) :
    ∀ (outer inner : Node → Node) (after : Node → Nat → Node × Nat → Prop) (f : Node),
      ActsAs tokens after outer →
      ∃ t k₁ x k₂, TermLoopAt tokens f k t k₁ ∧
        ExpressionLoopAt tokens (inner t) k₁ x k₂ ∧
        after x k₂ (assemble opNode outer inner f rest, j) := by
  induction h with
  | nil ht hop =>
    -- the chain is at its end: all three loops end here
    intro outer inner after f hafter
    have hterm := termNode_eq_none hop
    have hexpr := expressionNode_eq_none hop
    exact ⟨f, _, inner f, _, .exit ht hterm, .exit ht hexpr,
      hafter _ _ _ _ ht hexpr hterm (.exit ht (comparisonNode_eq_none hop))⟩
  | @cons k k' j op g rest hop hg _ ih =>
    intro outer inner after f hafter
    rcases op.level_cases with hl | hl | hl
    · -- a comparison: both inner loops end, and the comparison loop goes round
      have hterm : termNode op.token = none := by rw [termNode_token, if_neg (by omega)]
      have hexpr : expressionNode op.token = none := by
        rw [expressionNode_token, if_neg (by omega)]
      have hcmp : comparisonNode op.token = some op.nodeType := by
        rw [comparisonNode_token, if_pos hl]
      obtain ⟨t, k₁, x, k₂, ht, hx, hr⟩ := ih (opNode op (outer (inner f))) id
        (fun x k r => ComparisonLoopAt tokens (opNode op (outer (inner f)) x) k r.1 r.2) g
        (fun x k r t _ _ _ h => h)
      have hright : ExpressionAt tokens (k + 1) x k₂ := .intro (.intro hg ht) hx
      have hround := LoopAt.round parseExpression_mono hop hcmp hright hr
      refine ⟨f, k, inner f, k, .exit hop hterm, .exit hop hexpr, ?_⟩
      rw [assemble_comparison hl]
      exact hafter _ _ _ _ hop hexpr hterm hround
    · -- `+` or `-`: the term ends, and the sum takes one more term
      have hterm : termNode op.token = none := by rw [termNode_token, if_neg (by omega)]
      have hexpr : expressionNode op.token = some op.nodeType := by
        rw [expressionNode_token, if_pos hl]
      obtain ⟨t, k₁, x, k₂, ht, hx, hr⟩ := ih outer (opNode op (inner f)) after g hafter
      have hright : TermAt tokens (k + 1) t k₁ := .intro hg ht
      refine ⟨f, k, x, k₂, .exit hop hterm, .round parseTerm_mono hop hexpr hright hx, ?_⟩
      rw [assemble_additive hl]
      exact hr
    · -- `*` or `/`: a nested expression takes the rest of the sum
      have hterm : termNode op.token = some op.nodeType := by rw [termNode_token, if_pos hl]
      obtain ⟨t, k₁, x, k₂, ht, hx, x', k', x'', k'', ht', hx', hr⟩ := ih
        (fun x => outer (inner (opNode op f x))) id
        (fun x k r => ∃ t k₁ x' k₂, TermLoopAt tokens (opNode op f x) k t k₁ ∧
          ExpressionLoopAt tokens (inner t) k₁ x' k₂ ∧ after x' k₂ r) g
        (fun x k r t ht hexpr hterm h =>
          ⟨opNode op f x, k, _, k, .exit ht hterm, .exit ht hexpr,
            hafter _ _ _ _ ht hexpr hterm h⟩)
      have hright : ExpressionAt tokens (k + 1) x k₂ := .intro (.intro hg ht) hx
      refine ⟨x', k', x'', k'', .round parseExpression_mono hop hterm hright ht', hx', ?_⟩
      rw [assemble_product hl]
      exact hr

/-- On a chain, `parse_comparison` builds the chain's tree and stops after it. -/
theorem ChainAt.comparisonAt {i j : Nat} {f : Node} {rest : List (BinOp × Node)}
    (h : ChainAt tokens i f rest j) :
    ComparisonAt tokens i (assemble opNode id id f rest) j := by
  obtain ⟨k, hf, htail⟩ := h
  obtain ⟨t, k₁, x, k₂, ht, hx, hr⟩ := htail.run id id
    (fun x k r => ComparisonLoopAt tokens x k r.1 r.2) f
    (fun x k r t _ _ _ h => h)
  exact .intro (.intro (.intro hf ht) hx) hr

end Bytecode

end SystemsProjects

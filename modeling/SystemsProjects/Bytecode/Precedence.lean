import Mathlib.Algebra.GroupWithZero.Nat
import SystemsProjects.Bytecode.Rendering

/-!
# Operator precedence and associativity

The comment at the head of `compiler.c` documents three layers: comparisons, then
`+` and `-`, then `*` and `/` over factors. `Expr.render` prints a tree under these
layers, each level left-associative, with only the parentheses they require.

- `Expr.parsed`: the tree the parser builds from that rendering
  (`Expr.render_comparisonAt`). `parse_term` reads its right operand with
  `parse_expression`, so whatever follows a `*` or `/` inside the same parentheses
  is swallowed by it.
- `Expr.LoneProducts`: no `*` or `/` of the rendering is followed by another
  arithmetic operator inside the same parentheses. This is exactly when the tree
  comes back (`Expr.parsed_eq_iff`).

`Expr.render` puts a parenthesis where the documented layers need one and nowhere else, so a
rendered tree is a chain whose factors may be parenthesised chains. `Expr.render_comparisonAt`
computes the tree the parser builds from it, and the rest is a comparison of two trees.
-/

namespace SystemsProjects

namespace Bytecode

/-- The layer of a tree: that of its operator, or that of a factor. -/
def Expr.level : Expr → Nat
  | .num _ => 3
  | .ident _ => 3
  | .bin op _ _ => op.level

/-- Put parentheses around `ts` when `paren` holds. -/
def parenthesize (paren : Prop) [Decidable paren] (ts : List Token) : List Token :=
  if paren then Token.tokLparen :: ts ++ [Token.tokRparen] else ts

/-- The tokens of a tree with the parentheses the three layers require. -/
def Expr.render : Expr → List Token
  | .num v => [.tokNum v]
  | .ident x => [.tokIdent x]
  | .bin op l r =>
    parenthesize (l.level < op.level) l.render ++
      op.token :: parenthesize (r.level < op.level + 1) r.render

/-- A chain as an operand: parentheses make it a single factor. -/
def Chain.operand (paren : Prop) [Decidable paren] (c : Chain) : Chain :=
  if paren then (c.tree, []) else c

/-- The chain of factors that the rendering of a tree spells. -/
def Expr.chain : Expr → Chain
  | .num v => (.num v, [])
  | .ident x => (.ident x, [])
  | .bin op l r =>
    let cl := Chain.operand (l.level < op.level) l.chain
    let cr := Chain.operand (r.level < op.level + 1) r.chain
    (cl.1, cl.2 ++ (op, cr.1) :: cr.2)

/-- The tree the parser builds from the rendering of a tree. -/
def Expr.parsed (e : Expr) : Expr := e.chain.tree

/-! ## What the parser answers -/

theorem Chains.parenthesize {ts : List Token} {c : Chain} (h : Chains ts c)
    (paren : Prop) [Decidable paren] :
    Chains (parenthesize paren ts) (c.operand paren) := by
  unfold Bytecode.parenthesize Chain.operand
  by_cases hp : paren
  · rw [if_pos hp, if_pos hp]
    exact h.paren
  · rw [if_neg hp, if_neg hp]
    exact h

/-- The rendering of a tree is read as its chain. -/
theorem Expr.render_chains (e : Expr) : Chains e.render e.chain := by
  induction e with
  | num v => exact .num v
  | ident x => exact .ident x
  | bin op l r ihl ihr => exact .join (ihl.parenthesize _) (ihr.parenthesize _) op

/-- In front of a token that is no operator, `parse_comparison` reads the
rendering of `e` as `e.parsed`, up to that token. -/
theorem Expr.render_comparisonAt (e : Expr) (before rest : List Token) {t : Token}
    (ht : t.binOp? = none) :
    ∃ node, ComparisonAt (before ++ e.render ++ t :: rest) before.length node
      (before.length + e.render.length) ∧ node.Reads e.parsed := by
  have hdrop : (before ++ e.render ++ t :: rest).drop before.length
      = e.render ++ t :: rest := by
    rw [List.append_assoc, List.drop_left]
  exact e.render_chains.comparisonAt hdrop ht

/-- `parse_comparison` has one answer at each cursor. -/
theorem ComparisonAt.unique {tokens : List Token} {i j j' : Nat} {node node' : Node}
    (h : ComparisonAt tokens i node j) (h' : ComparisonAt tokens i node' j') :
    node = node' ∧ j = j' :=
  Prod.mk.inj (Yields.unique (parseComparison_mono i) h h')

/-! ## The tree of a chain, one operator at a time -/

/-- None of the operators is a comparison. -/
def Arithmetic (rest : List (BinOp × Expr)) : Prop := ∀ p ∈ rest, p.1.level ≠ 0

/-- The rest of an arithmetic chain is arithmetic. -/
theorem Arithmetic.tail {p : BinOp × Expr} {rest : List (BinOp × Expr)}
    (h : Arithmetic (p :: rest)) : Arithmetic rest :=
  fun q hq => h q (List.mem_cons_of_mem p hq)

/-- The outer context only wraps the expression that an arithmetic chain builds. -/
theorem assemble_outer {rest : List (BinOp × Expr)} (hrest : Arithmetic rest) :
    ∀ (outer inner : Expr → Expr) (f : Expr),
      assemble .bin outer inner f rest = outer (assemble .bin id inner f rest) := by
  induction rest with
  | nil => intro outer inner f; rfl
  | cons p rest ih =>
    intro outer inner f
    obtain ⟨op, g⟩ := p
    rcases op.level_cases with hl | hl | hl
    · exact absurd hl (hrest (op, g) List.mem_cons_self)
    · rw [assemble_additive hl, assemble_additive hl]
      exact ih hrest.tail outer _ g
    · rw [assemble_product hl, assemble_product hl, ih hrest.tail,
        ih hrest.tail (fun x => id (inner (.bin op f x)))]
      rfl

/-- A comparison operator compares all that was built before it. -/
theorem assemble_append_comparison {op : BinOp} (hop : op.level = 0) {g : Expr}
    {rest more : List (BinOp × Expr)} :
    ∀ (outer inner : Expr → Expr) (f : Expr),
      assemble .bin outer inner f (rest ++ (op, g) :: more)
        = assemble .bin (.bin op (assemble .bin outer inner f rest)) id g more := by
  induction rest with
  | nil => intro outer inner f; exact assemble_comparison hop outer inner f
  | cons p rest ih =>
    intro outer inner f
    obtain ⟨op', g'⟩ := p
    rw [List.cons_append]
    rcases op'.level_cases with hl | hl | hl
    · rw [assemble_comparison hl, assemble_comparison hl]
      exact ih _ _ g'
    · rw [assemble_additive hl, assemble_additive hl]
      exact ih _ _ g'
    · rw [assemble_product hl, assemble_product hl]
      exact ih _ _ g'

/-- After sums and differences only, one more of them extends the sum. -/
theorem assemble_append_additive {op : BinOp} (hop : op.level = 1) {g : Expr}
    {rest more : List (BinOp × Expr)} (hrest : ∀ p ∈ rest, p.1.level = 1) :
    ∀ (outer inner : Expr → Expr) (f : Expr),
      assemble .bin outer inner f (rest ++ (op, g) :: more)
        = assemble .bin outer (.bin op (assemble .bin id inner f rest)) g more := by
  induction rest with
  | nil => intro outer inner f; exact assemble_additive hop outer inner f
  | cons p rest ih =>
    intro outer inner f
    obtain ⟨op', g'⟩ := p
    have hl : op'.level = 1 := hrest (op', g') List.mem_cons_self
    rw [List.cons_append, assemble_additive hl, assemble_additive hl]
    exact ih (fun q hq => hrest q (List.mem_cons_of_mem _ hq)) outer _ g'

/-! ## Counting leaves

A misread tree is told from the right one by the number of leaves of its left
operand. -/

/-- The number of numbers and identifiers in a tree. -/
def Expr.leaves : Expr → Nat
  | .num _ => 1
  | .ident _ => 1
  | .bin _ l r => l.leaves + r.leaves

theorem Expr.leaves_pos : ∀ e : Expr, 0 < e.leaves
  | .num _ => Nat.one_pos
  | .ident _ => Nat.one_pos
  | .bin _ l _ => Nat.lt_of_lt_of_le l.leaves_pos (Nat.le_add_right _ _)

/-- The leaves of the operands behind the first one. -/
def tailLeaves (rest : List (BinOp × Expr)) : Nat := (rest.map fun p => p.2.leaves).sum

@[simp] theorem tailLeaves_nil : tailLeaves [] = 0 := rfl

@[simp] theorem tailLeaves_cons (p : BinOp × Expr) (rest : List (BinOp × Expr)) :
    tailLeaves (p :: rest) = p.2.leaves + tailLeaves rest := by
  simp [tailLeaves]

/-- The leaves of two chains one behind the other. -/
@[simp] theorem tailLeaves_append (rest more : List (BinOp × Expr)) :
    tailLeaves (rest ++ more) = tailLeaves rest + tailLeaves more := by
  simp [tailLeaves]

theorem Expr.leaves_id (x : Expr) : (id x).leaves = 0 + x.leaves := (Nat.zero_add _).symm

/-- The tree of a chain has the leaves of its factors. -/
theorem leaves_assemble {rest : List (BinOp × Expr)} :
    ∀ {outer inner : Expr → Expr} {a b : Nat} (f : Expr),
      (∀ x, (outer x).leaves = a + x.leaves) → (∀ x, (inner x).leaves = b + x.leaves) →
      (assemble .bin outer inner f rest).leaves
        = a + b + f.leaves + tailLeaves rest := by
  induction rest with
  | nil =>
    intro outer inner a b f hout hin
    show (outer (inner f)).leaves = _
    rw [hout, hin, tailLeaves_nil]
    omega
  | cons p rest ih =>
    intro outer inner a b f hout hin
    obtain ⟨op, g⟩ := p
    rw [tailLeaves_cons]
    dsimp only
    -- whatever the operator does to the tree, no leaf is lost
    rcases op.level_cases with hl | hl | hl
    · rw [assemble_comparison hl,
        ih (a := a + b + f.leaves) (b := 0) g
          (fun x => by rw [Expr.leaves, hout, hin]; omega) Expr.leaves_id]
      omega
    · rw [assemble_additive hl,
        ih (a := a) (b := b + f.leaves) g hout (fun x => by rw [Expr.leaves, hin])]
      omega
    · rw [assemble_product hl,
        ih (a := a + b + f.leaves) (b := 0) g
          (fun x => by rw [hout, hin, Expr.leaves]; omega) Expr.leaves_id]
      omega

/-- Assembling a chain keeps the number of leaves. -/
theorem Chain.leaves_tree (c : Chain) : c.tree.leaves = c.1.leaves + tailLeaves c.2 := by
  rw [Chain.tree, leaves_assemble c.1 Expr.leaves_id Expr.leaves_id]
  omega

/-- Once a `*` or `/` stands before an arithmetic operator, the operator is not the
root any more: the root's left operand lacks some of the leaves before it. -/
theorem assemble_misplaced {op : BinOp} {g : Expr} {rest more : List (BinOp × Expr)}
    (hrest : Arithmetic (rest ++ (op, g) :: more)) (hprod : ∃ p ∈ rest, p.1.level = 2) :
    ∀ {inner : Expr → Expr} {b : Nat} (f : Expr),
      (inner = id ∧ b = 0 ∨ ∃ o acc, inner = .bin o acc ∧ b = acc.leaves) →
      ∃ o x y, assemble .bin id inner f (rest ++ (op, g) :: more) = .bin o x y ∧
        x.leaves < b + f.leaves + tailLeaves rest := by
  induction rest with
  | nil =>
    obtain ⟨p, hp, -⟩ := hprod
    cases hp
  | cons p rest ih =>
    intro inner b f hin
    obtain ⟨op', g'⟩ := p
    rw [List.cons_append] at hrest ⊢
    rw [tailLeaves_cons]
    dsimp only
    have hg' := g'.leaves_pos
    rcases op'.level_cases with hl | hl | hl
    · exact absurd hl (hrest (op', g') List.mem_cons_self)
    · -- a sum before the product: `inner f` becomes its left operand
      have hprod' : ∃ p ∈ rest, p.1.level = 2 := by
        obtain ⟨p, hp, hp2⟩ := hprod
        rcases List.mem_cons.mp hp with rfl | hp
        · exact absurd hp2 (by rw [hl]; decide)
        · exact ⟨p, hp, hp2⟩
      have hleaves : (inner f).leaves = b + f.leaves := by
        rcases hin with ⟨rfl, rfl⟩ | ⟨o, acc, rfl, rfl⟩
        · exact (Nat.zero_add _).symm
        · rfl
      obtain ⟨o, x, y, heq, hlt⟩ := ih hrest.tail hprod' g'
        (.inr ⟨op', inner f, rfl, hleaves.symm⟩)
      refine ⟨o, x, y, ?_, by omega⟩
      rw [assemble_additive hl]
      exact heq
    · -- the product: all that follows goes to its right
      rw [assemble_product hl, assemble_outer hrest.tail]
      rcases hin with ⟨rfl, rfl⟩ | ⟨o, acc, rfl, rfl⟩
      · exact ⟨op', f, _, rfl, by omega⟩
      · exact ⟨o, acc, _, rfl, by have := f.leaves_pos; omega⟩

/-! ## When the tree comes back -/

/-- The chain of the left operand of `op`, as it stands in the rendering. -/
abbrev Expr.leftChain (op : BinOp) (l : Expr) : Chain := l.chain.operand (l.level < op.level)

/-- The chain of the right operand of `op`, as it stands in the rendering. -/
abbrev Expr.rightChain (op : BinOp) (r : Expr) : Chain :=
  r.chain.operand (r.level < op.level + 1)

/-- The chain of an operation: that of the left operand, the operator, that of the right one. -/
theorem Expr.chain_bin (op : BinOp) (l r : Expr) :
    (Expr.bin op l r).chain = ((l.leftChain op).1,
      (l.leftChain op).2 ++ (op, (r.rightChain op).1) :: (r.rightChain op).2) := rfl

/-- Parentheses around a chain do not change its tree. -/
@[simp] theorem Chain.operand_tree (paren : Prop) [Decidable paren] (c : Chain) :
    (c.operand paren).tree = c.tree := by
  unfold Chain.operand
  split <;> rfl

/-- What is parsed back has as many leaves as what was printed. -/
theorem Expr.leaves_parsed (e : Expr) : e.parsed.leaves = e.leaves := by
  induction e with
  | num v => rfl
  | ident x => rfl
  | bin op l r ihl ihr =>
    have hl := (l.leftChain op).leaves_tree
    have hr := (r.rightChain op).leaves_tree
    rw [Chain.operand_tree] at hl hr
    unfold Expr.parsed at ihl ihr ⊢
    rw [Chain.leaves_tree, Expr.chain_bin, Expr.leaves]
    simp only [tailLeaves_append, tailLeaves_cons]
    omega

/-- Below a comparison operator, a chain holds arithmetic operators only. -/
theorem Expr.chain_arithmetic {e : Expr} (h : e.level ≠ 0) : Arithmetic e.chain.2 := by
  induction e with
  | num v => exact fun p hp => nomatch hp
  | ident x => exact fun p hp => nomatch hp
  | bin op l r ihl ihr =>
    have hop : op.level ≠ 0 := h
    rw [Expr.chain_bin]
    intro p hp
    rcases List.mem_append.mp hp with hp | hp
    · rw [Expr.leftChain, Chain.operand] at hp
      split at hp
      · cases hp
      · exact ihl (by omega) p hp
    · rcases List.mem_cons.mp hp with rfl | hp
      · exact hop
      · rw [Expr.rightChain, Chain.operand] at hp
        split at hp
        · cases hp
        · exact ihr (by omega) p hp

/-- To the right of an operator no comparison stands open. -/
theorem Expr.rightChain_arithmetic (op : BinOp) (r : Expr) :
    Arithmetic (r.rightChain op).2 := by
  rw [Expr.rightChain, Chain.operand]
  split
  · exact fun p hp => nomatch hp
  · exact Expr.chain_arithmetic (by omega)

/-- The chain of a product is a single factor or goes on with `*` or `/`. -/
theorem Expr.chain_product {e : Expr} (h : 2 ≤ e.level) :
    e.chain.2 = [] ∨
      ∃ op g more, e.chain.2 = (op, g) :: more ∧ op.level = 2 ∧ Arithmetic more := by
  induction e with
  | num v => exact .inl rfl
  | ident x => exact .inl rfl
  | bin op l r ihl _ =>
    have hop : op.level = 2 := by
      have h : 2 ≤ op.level := h
      rcases op.level_cases with hl | hl | hl <;> omega
    have harith : Arithmetic (Expr.bin op l r).chain.2 :=
      Expr.chain_arithmetic (by rw [Expr.level]; omega)
    refine .inr ?_
    rw [Expr.chain_bin] at harith ⊢
    -- a left operand of a lower level is in parentheses, a single factor
    by_cases hp : l.level < op.level
    · rw [Expr.leftChain, Chain.operand, if_pos hp] at harith ⊢
      exact ⟨op, _, _, rfl, hop, harith.tail⟩
    · rw [Expr.leftChain, Chain.operand, if_neg hp] at harith ⊢
      rcases ihl (by omega) with hnil | ⟨op', g, more, hcons, hop', -⟩
      · rw [hnil] at harith ⊢
        exact ⟨op, _, _, rfl, hop, harith.tail⟩
      · rw [hcons] at harith ⊢
        exact ⟨op', g, _, rfl, hop', harith.tail⟩

/-- The operand after a `+` or `-` completes the sum before it. -/
theorem Expr.rightChain_sum {op : BinOp} (hop : op.level = 1) (A r : Expr) :
    assemble .bin id (.bin op A) (r.rightChain op).1 (r.rightChain op).2
      = .bin op A r.parsed := by
  rw [Expr.rightChain, Chain.operand]
  split
  · rfl
  · have h2 : 2 ≤ r.level := by omega
    unfold Expr.parsed Chain.tree
    rcases Expr.chain_product h2 with hnil | ⟨op', g, more, hcons, hop', hmore⟩
    · rw [hnil]
      rfl
    · rw [hcons, assemble_product hop', assemble_product hop', assemble_outer hmore,
        assemble_outer hmore (fun x => id (id (.bin op' r.chain.1 x)))]
      rfl

/-- A comparison is read back operand by operand. -/
theorem Expr.parsed_comparison {op : BinOp} (hop : op.level = 0) (l r : Expr) :
    (Expr.bin op l r).parsed = .bin op l.parsed r.parsed := by
  have hl : (l.leftChain op).tree = l.parsed := Chain.operand_tree _ _
  have hr : (r.rightChain op).tree = r.parsed := Chain.operand_tree _ _
  unfold Expr.parsed at hl hr ⊢
  rw [Chain.tree, Expr.chain_bin, assemble_append_comparison hop,
    assemble_outer (r.rightChain_arithmetic op), ← hl, ← hr]
  rfl

/-- A sum is read back operand by operand when no product stands before it. -/
theorem Expr.parsed_additive {op : BinOp} (hop : op.level = 1) {l : Expr} (r : Expr)
    (hl : ∀ p ∈ (l.leftChain op).2, p.1.level = 1) :
    (Expr.bin op l r).parsed = .bin op l.parsed r.parsed := by
  have htree : (l.leftChain op).tree = l.parsed := Chain.operand_tree _ _
  rw [Expr.parsed, Chain.tree, Expr.chain_bin, assemble_append_additive hop hl]
  rw [Expr.rightChain_sum hop, ← htree]
  rfl

/-- A product is read back operand by operand when its left operand is one factor. -/
theorem Expr.parsed_product {op : BinOp} (hop : op.level = 2) {l : Expr} (r : Expr)
    (hl : (l.leftChain op).2 = []) :
    (Expr.bin op l r).parsed = .bin op l.parsed r.parsed := by
  have htree : (l.leftChain op).tree = l.parsed := Chain.operand_tree _ _
  have hr : (r.rightChain op).tree = r.parsed := Chain.operand_tree _ _
  rw [Expr.parsed, Chain.tree, Expr.chain_bin, hl, List.nil_append, assemble_product hop,
    assemble_outer (r.rightChain_arithmetic op), ← htree, ← hr, Chain.tree, hl]
  rfl

/-- With a `*` or `/` before an arithmetic operator, another tree is read. -/
theorem Expr.parsed_ne {op : BinOp} (hop : op.level ≠ 0) {l : Expr} (r : Expr)
    (hprod : ∃ p ∈ (l.leftChain op).2, p.1.level = 2) :
    (Expr.bin op l r).parsed ≠ .bin op l r := by
  intro heq
  have harith : Arithmetic (Expr.bin op l r).chain.2 := Expr.chain_arithmetic hop
  rw [Expr.chain_bin] at harith
  obtain ⟨o, x, y, hbuild, hlt⟩ :=
    assemble_misplaced harith hprod (l.leftChain op).1 (.inl ⟨rfl, rfl⟩)
  have hroot : Expr.bin op l r = .bin o x y := by
    rw [← heq, ← hbuild]
    rfl
  have hleaves : (l.leftChain op).tree.leaves = l.leaves := by
    rw [Chain.operand_tree]
    exact l.leaves_parsed
  rw [Chain.leaves_tree] at hleaves
  have hx : l = x := (Expr.bin.inj hroot).2.1
  rw [← hx] at hlt
  omega

/-- The rendering of the tree ends with a product that no parentheses close. -/
def Expr.endsInProduct : Expr → Bool
  | .bin op _ r => op.level = 2 || (op.level = 1 && r.level = 2)
  | _ => false

/-- No arithmetic operator has a left operand that stands without parentheses and
ends in a product: in the rendering, no `*` or `/` is followed by another of
`+`, `-`, `*`, `/` inside the same parentheses. -/
def Expr.LoneProducts : Expr → Prop
  | .bin op l r => l.LoneProducts ∧ r.LoneProducts ∧
      ¬ (op.level ≠ 0 ∧ op.level ≤ l.level ∧ l.endsInProduct = true)
  | _ => True

instance Expr.decidableLoneProducts : (e : Expr) → Decidable e.LoneProducts
  | .num _ => .isTrue trivial
  | .ident _ => .isTrue trivial
  | .bin op l r =>
    have := l.decidableLoneProducts
    have := r.decidableLoneProducts
    inferInstanceAs (Decidable (l.LoneProducts ∧ r.LoneProducts ∧
      ¬ (op.level ≠ 0 ∧ op.level ≤ l.level ∧ l.endsInProduct = true)))

/-- The operator of an expression stands open in its chain. -/
theorem Expr.mem_chain_of_level {e : Expr} (h : e.level ≤ 2) :
    ∃ p ∈ e.chain.2, p.1.level = e.level := by
  cases e with
  | num v => exact absurd h (by rw [Expr.level]; omega)
  | ident x => exact absurd h (by rw [Expr.level]; omega)
  | bin op l r =>
    rw [Expr.chain_bin]
    exact ⟨_, List.mem_append_right _ List.mem_cons_self, rfl⟩

/-- A tree that ends in a product has a product in its chain. -/
theorem Expr.product_mem_chain {e : Expr} (h : e.endsInProduct = true) :
    ∃ p ∈ e.chain.2, p.1.level = 2 := by
  cases e with
  | num v => cases h
  | ident x => cases h
  | bin op l r =>
    simp only [Expr.endsInProduct, Bool.or_eq_true, decide_eq_true_eq, Bool.and_eq_true] at h
    rw [Expr.chain_bin]
    rcases h with hop | ⟨hop, hr⟩
    · exact ⟨_, List.mem_append_right _ List.mem_cons_self, hop⟩
    · obtain ⟨p, hp, hp2⟩ := Expr.mem_chain_of_level (Nat.le_of_eq hr)
      have hchain : r.rightChain op = r.chain := by
        rw [Expr.rightChain, Chain.operand, if_neg (by omega)]
      refine ⟨p, List.mem_append_right _ (List.mem_cons_of_mem _ ?_), hp2.trans hr⟩
      rw [hchain]
      exact hp

/-- Without a product at its end, a tree with lone products is a plain sum. -/
theorem Expr.chain_additive {e : Expr} (hlone : e.LoneProducts) (hlevel : e.level ≠ 0)
    (hends : e.endsInProduct = false) : ∀ p ∈ e.chain.2, p.1.level = 1 := by
  induction e with
  | num v => exact fun p hp => nomatch hp
  | ident x => exact fun p hp => nomatch hp
  | bin op l r ihl _ =>
    obtain ⟨hl, -, hbad⟩ := hlone
    simp only [Expr.endsInProduct, Bool.or_eq_false_iff, decide_eq_false_iff_not,
      Bool.and_eq_false_iff] at hends
    have hop : op.level = 1 := by
      have hlevel : op.level ≠ 0 := hlevel
      rcases op.level_cases with h | h | h <;> omega
    rw [Expr.chain_bin]
    intro p hp
    rcases List.mem_append.mp hp with hp | hp
    · -- the chain of the left operand, unless it is one factor in parentheses
      rw [Expr.leftChain, Chain.operand] at hp
      split at hp
      · cases hp
      · next hparen =>
        have hends' : l.endsInProduct = false := by
          cases hb : l.endsInProduct with
          | false => rfl
          | true => exact absurd ⟨by omega, by omega, hb⟩ hbad
        exact ihl hl (by omega) hends' p hp
    · rcases List.mem_cons.mp hp with rfl | hp
      · exact hop
      · rw [Expr.rightChain, Chain.operand] at hp
        split at hp
        · cases hp
        · -- the right operand of `+` or `-` is a factor
          cases r with
          | num v => cases hp
          | ident x => cases hp
          | bin op' l' r' =>
            have := op'.level_cases
            simp only [Expr.level] at *
            omega

/-- **The tree comes back exactly when its products are lone.** -/
theorem Expr.parsed_eq_iff (e : Expr) : e.parsed = e ↔ e.LoneProducts := by
  induction e with
  | num v => exact ⟨fun _ => trivial, fun _ => rfl⟩
  | ident x => exact ⟨fun _ => trivial, fun _ => rfl⟩
  | bin op l r ihl ihr =>
    -- operand by operand, provided the operator itself is read where it stands
    have hbin (h : (Expr.bin op l r).parsed = .bin op l.parsed r.parsed)
        (hok : ¬ (op.level ≠ 0 ∧ op.level ≤ l.level ∧ l.endsInProduct = true)) :
        (Expr.bin op l r).parsed = .bin op l r ↔ (Expr.bin op l r).LoneProducts := by
      rw [h, Expr.LoneProducts, ← ihl, ← ihr]
      constructor
      · intro heq
        obtain ⟨-, hl, hr⟩ := Expr.bin.inj heq
        exact ⟨hl, hr, hok⟩
      · rintro ⟨hl, hr, -⟩
        rw [hl, hr]
    by_cases hop : op.level = 0
    · exact hbin (Expr.parsed_comparison hop l r) (fun h => h.1 hop)
    · by_cases hprod : ∃ p ∈ (l.leftChain op).2, p.1.level = 2
      · refine iff_of_false (Expr.parsed_ne hop r hprod) ?_
        rintro ⟨hl, -, hok⟩
        obtain ⟨p, hp, hp2⟩ := hprod
        rw [Expr.leftChain, Chain.operand] at hp
        split at hp
        · cases hp
        · cases hb : l.endsInProduct with
          | true => exact hok ⟨hop, by omega, hb⟩
          | false =>
            have := Expr.chain_additive hl (by omega) hb p hp
            omega
      · have hok : ¬ (op.level ≠ 0 ∧ op.level ≤ l.level ∧ l.endsInProduct = true) := by
          rintro ⟨-, hle, hends⟩
          refine hprod ?_
          rw [Expr.leftChain, Chain.operand, if_neg (by omega)]
          exact Expr.product_mem_chain hends
        have hadd : ∀ p ∈ (l.leftChain op).2, p.1.level = 1 := by
          intro p hp
          have hp0 : p.1.level ≠ 0 := by
            rw [Expr.leftChain, Chain.operand] at hp
            split at hp
            · cases hp
            · exact Expr.chain_arithmetic (by omega) p hp
          rcases p.1.level_cases with h | h | h
          · exact absurd h hp0
          · exact h
          · exact absurd ⟨p, hp, h⟩ hprod
        by_cases hop₁ : op.level = 1
        · exact hbin (Expr.parsed_additive hop₁ r hadd) hok
        · have hop₂ : op.level = 2 := by
            rcases op.level_cases with h | h | h <;> omega
          refine hbin (Expr.parsed_product hop₂ r ?_) hok
          rw [Expr.leftChain, Chain.operand] at hadd ⊢
          split
          · rfl
          · next hparen =>
            rw [if_neg hparen] at hadd
            have h2 : 2 ≤ l.level := by omega
            rcases Expr.chain_product h2 with hnil | ⟨op', g, more, hcons, hop', -⟩
            · exact hnil
            · have := hadd (op', g) (by rw [hcons]; exact List.mem_cons_self)
              dsimp only at this
              omega

/-! ## `parse_comparison` on a rendered tree -/

/-- **Precedence and associativity.** In front of any token that cannot continue an
expression, `parse_comparison` returns the tree that was rendered, stopping at that
token, exactly when no `*` or `/` of the rendering is followed by another arithmetic
operator inside the same parentheses. -/
theorem parseComparison_render_iff (e : Expr) (before rest : List Token) (t : Token)
    (ht : t.binOp? = none) :
    (∃ node, ComparisonAt (before ++ e.render ++ t :: rest) before.length node
      (before.length + e.render.length) ∧ node.Reads e) ↔ e.LoneProducts := by
  obtain ⟨node, hnode, hreads⟩ := e.render_comparisonAt before rest ht
  rw [← e.parsed_eq_iff]
  constructor
  · rintro ⟨node', hnode', hreads'⟩
    obtain ⟨rfl, -⟩ := hnode.unique hnode'
    exact Option.some.inj (hreads.symm.trans hreads')
  · intro heq
    rw [heq] at hreads
    exact ⟨node, hnode, hreads⟩

/-- `2 + 3 * 4` in front of the end of the file comes back. -/
theorem parseComparison_render_sum_of_product :
    ∃ node, ComparisonAt
      ([] ++ (Expr.bin .add (.num 2) (.bin .mul (.num 3) (.num 4))).render ++ [.tokEof])
      0 node 5 ∧ node.Reads (.bin .add (.num 2) (.bin .mul (.num 3) (.num 4))) :=
  (parseComparison_render_iff _ [] [] .tokEof rfl).mpr (by decide)

/-- `2 * 3 + 4` in front of the end of the file does not come back: it is read as
`2 * (3 + 4)`. -/
theorem parseComparison_render_product_plus :
    (¬ ∃ node, ComparisonAt
      [.tokNum 2, .tokStar, .tokNum 3, .tokPlus, .tokNum 4, .tokEof]
      0 node 5 ∧ node.Reads (.bin .add (.bin .mul (.num 2) (.num 3)) (.num 4))) ∧
    ∃ node, ComparisonAt
      [.tokNum 2, .tokStar, .tokNum 3, .tokPlus, .tokNum 4, .tokEof]
      0 node 5 ∧ node.Reads (.bin .mul (.num 2) (.bin .add (.num 3) (.num 4))) := by
  obtain ⟨node, hnode, hreads⟩ := Expr.render_comparisonAt
    (.bin .add (.bin .mul (.num 2) (.num 3)) (.num 4)) [] [] (t := .tokEof) rfl
  refine ⟨?_, node, hnode, hreads⟩
  rintro ⟨node', hnode', hreads'⟩
  obtain ⟨rfl, -⟩ := ComparisonAt.unique hnode hnode'
  exact absurd (Option.some.inj (hreads.symm.trans hreads')) (by decide)

end Bytecode

end SystemsProjects

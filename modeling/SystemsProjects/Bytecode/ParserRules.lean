import SystemsProjects.Bytecode.Parser

/-!
# Rules for the parsing functions

More fuel never changes what a parsing function answers (`parse_mono`,
`parseStatement_mono`), so each function has one answer at each cursor. This file
states that answer without fuel (`ComparisonAt`, `ExpressionAt`, `TermAt`,
`FactorAt`, `LoopAt`) and derives one rule for each way the source takes.

The monotonicity comes first, in one induction over the four mutually recursive functions; the
loops of the three binary levels are one function with the level's operators and its operand as
arguments, and so are their lemmas. The last section reads the rules backwards: what has
returned came in one of the ways listed.
-/

namespace SystemsProjects

namespace Bytecode

open Fueled

variable {tokens : List Token}

/-! ## Fuel monotonicity -/

theorem tokenAt_eq {i : Nat} {t : Token} (h : tokens[i]? = some t) :
    tokenAt tokens i = .done t := by
  rw [tokenAt, h]

theorem tokenAt_eq_done {i : Nat} {t : Token} :
    tokenAt tokens i = .done t ↔ tokens[i]? = some t := by
  unfold tokenAt
  cases tokens[i]? <;> simp

/-! ### Unfolding one level -/

theorem parseFactor_succ (n i : Nat) :
    parseFactor (n + 1) tokens i = tokenAt tokens i >>= fun t =>
      match t with
      | .tokIdent x =>
        .done ({ type := some .nodeIdent, name := some x, left := .null }, i + 1)
      | .tokNum v =>
        .done ({ type := some .nodeNum, value := some v, left := .null,
                 right := .null }, i + 1)
      | .tokLparen => parseComparison n tokens (i + 1) >>= fun r => .done (r.1, r.2 + 1)
      | _ => .done ({}, i) := rfl

theorem parseStatement_succ (n i : Nat) :
    parseStatement (n + 1) tokens i = tokenAt tokens i >>= fun t =>
      match t with
      | .tokIdent x => tokenAt tokens (i + 1) >>= fun t' =>
        match t' with
        | .tokEq => parseComparison n tokens (i + 2) >>= fun r =>
          .done ({ type := some .nodeAssign,
                   left := .ref { type := some .nodeIdent, name := some x,
                                  left := .null, right := .null },
                   right := .ref r.1 }, r.2)
        | _ => .stop .noReturnValue
      | .tokPrint => parseComparison n tokens (i + 1) >>= fun r =>
        .done ({ type := some .nodePrint, left := .ref r.1, right := .null }, r.2)
      | .tokIf => parseBlockStatement .nodeIf n tokens i
      | .tokWhile => parseBlockStatement .nodeWhile n tokens i
      | _ => .stop (.exit "AAAAAAAAAAA") := rfl

theorem parseBody_succ (n : Nat) (body : List Node) (ptr i : Nat) :
    parseBody (n + 1) tokens body ptr i = tokenAt tokens i >>= fun t =>
      match t with
      | .tokRbrace => .done (body, ptr, i)
      | _ => parseStatement n tokens i >>= fun r =>
        if ptr < 128 then parseBody n tokens (body ++ [r.1]) (ptr + 1) r.2
        else .stop (.bodyOverflow ptr) := rfl

/-- A round of the body loop that does not end it. -/
theorem parseBody_of_ne {i : Nat} {t : Token} (ht : tokens[i]? = some t) (hbrace : t ≠ .tokRbrace)
    (n : Nat) (body : List Node) (ptr : Nat) :
    parseBody (n + 1) tokens body ptr i = parseStatement n tokens i >>= fun r =>
      if ptr < 128 then parseBody n tokens (body ++ [r.1]) (ptr + 1) r.2
      else .stop (.bodyOverflow ptr) := by
  rw [parseBody_succ, tokenAt_eq ht, done_bind]
  cases t with
  | tokRbrace => exact absurd rfl hbrace
  | _ => rfl

theorem parserLoop_succ (n capacity : Nat) (statements : List Node) (count i : Nat) :
    parserLoop (n + 1) tokens capacity statements count i = tokenAt tokens i >>= fun t =>
      match t with
      | .tokEof => .done ⟨statements, count, i⟩
      | _ => parseStatement n tokens i >>= fun r =>
        if count < (if count = capacity then capacity * 2 else capacity) then
          parserLoop n tokens (if count = capacity then capacity * 2 else capacity)
            (statements ++ [r.1]) (count + 1) r.2
        else .stop (.statementsOverflow count) := rfl

/-- A round of the top-level loop that does not end it. -/
theorem parserLoop_of_ne {i : Nat} {t : Token} (ht : tokens[i]? = some t) (heof : t ≠ .tokEof)
    (n capacity : Nat) (statements : List Node) (count : Nat) :
    parserLoop (n + 1) tokens capacity statements count i = parseStatement n tokens i >>= fun r =>
      if count < (if count = capacity then capacity * 2 else capacity) then
        parserLoop n tokens (if count = capacity then capacity * 2 else capacity)
          (statements ++ [r.1]) (count + 1) r.2
      else .stop (.statementsOverflow count) := by
  rw [parserLoop_succ, tokenAt_eq ht, done_bind]
  cases t with
  | tokEof => exact absurd rfl heof
  | _ => rfl

/-! ### Monotonicity -/

/-- A loop is monotone in its own fuel and in its operand. -/
theorem binaryLoop_approx (nodeOf : Token → Option NodeType) {f f' : Nat → Parsed}
    (hf : ∀ i, Approx (f i) (f' i)) {n m : Nat} (h : n ≤ m) (left : Node) (i : Nat) :
    Approx (binaryLoop nodeOf f tokens n left i)
      (binaryLoop nodeOf f' tokens m left i) := by
  induction n generalizing m left i with
  | zero => exact .out_left _
  | succ n ih =>
    cases m with
    | zero => exact absurd h (Nat.not_succ_le_zero n)
    | succ m =>
      rw [binaryLoop, binaryLoop]
      refine .bind (.refl _) fun t => ?_
      cases nodeOf t with
      | none => exact .refl _
      | some type => exact .bind (hf (i + 1)) fun r => ih (Nat.le_of_succ_le_succ h) _ _

/-- One more unit of fuel refines all four expression levels. -/
theorem parse_mono (n : Nat) :
    (∀ i, Approx (parseComparison n tokens i) (parseComparison (n + 1) tokens i)) ∧
    (∀ i, Approx (parseExpression n tokens i) (parseExpression (n + 1) tokens i)) ∧
    (∀ i, Approx (parseTerm n tokens i) (parseTerm (n + 1) tokens i)) ∧
    (∀ i, Approx (parseFactor n tokens i) (parseFactor (n + 1) tokens i)) := by
  induction n with
  | zero =>
    refine ⟨fun i => ?_, fun i => ?_, fun i => ?_, fun i => ?_⟩
    · rw [parseComparison]; exact .out_left _
    · rw [parseExpression]; exact .out_left _
    · rw [parseTerm]; exact .out_left _
    · exact .out_left _
  | succ n ih =>
    obtain ⟨hcomparison, hexpression, hterm, hfactor⟩ := ih
    refine ⟨fun i => ?_, fun i => ?_, fun i => ?_, fun i => ?_⟩
    · -- a level is its first operand and a loop over the others
      rw [parseComparison, parseComparison]
      exact .bind (hexpression i) fun r => binaryLoop_approx _ hexpression (Nat.le_succ n) _ _
    · rw [parseExpression, parseExpression]
      exact .bind (hterm i) fun r => binaryLoop_approx _ hterm (Nat.le_succ n) _ _
    · rw [parseTerm, parseTerm]
      exact .bind (hfactor i) fun r => binaryLoop_approx _ hexpression (Nat.le_succ n) _ _
    · rw [parseFactor_succ, parseFactor_succ]
      refine .bind (.refl _) fun t => ?_
      cases t with
      | tokLparen => exact .bind (hcomparison (i + 1)) fun r => .refl _
      | _ => exact .refl _

theorem parseComparison_mono (i : Nat) :
    FuelMono fun n => parseComparison n tokens i := fun n => (parse_mono n).1 i

theorem parseExpression_mono (i : Nat) :
    FuelMono fun n => parseExpression n tokens i := fun n => (parse_mono n).2.1 i

theorem parseTerm_mono (i : Nat) :
    FuelMono fun n => parseTerm n tokens i := fun n => (parse_mono n).2.2.1 i

theorem parseFactor_mono (i : Nat) :
    FuelMono fun n => parseFactor n tokens i := fun n => (parse_mono n).2.2.2 i

theorem parseStatement_approx (n : Nat) :
    (∀ i, Approx (parseStatement n tokens i) (parseStatement (n + 1) tokens i)) ∧
    (∀ type i, Approx (parseBlockStatement type n tokens i)
      (parseBlockStatement type (n + 1) tokens i)) ∧
    (∀ body ptr i, Approx (parseBody n tokens body ptr i)
      (parseBody (n + 1) tokens body ptr i)) := by
  induction n with
  | zero =>
    refine ⟨fun i => ?_, fun type i => ?_, fun body ptr i => ?_⟩
    · exact .out_left _
    · exact .out_left _
    · exact .out_left _
  | succ n ih =>
    obtain ⟨hstatement, hblock, hbody⟩ := ih
    refine ⟨fun i => ?_, fun type i => ?_, fun body ptr i => ?_⟩
    · -- the first token decides which function is called next
      rw [parseStatement_succ, parseStatement_succ]
      refine .bind (.refl _) fun t => ?_
      cases t with
      | tokIdent x =>
        refine .bind (.refl _) fun t' => ?_
        cases t' with
        | tokEq => exact .bind (parseComparison_mono _ n) fun r => .refl _
        | _ => exact .refl _
      | tokPrint => exact .bind (parseComparison_mono _ n) fun r => .refl _
      | tokIf => exact hblock _ i
      | tokWhile => exact hblock _ i
      | _ => exact .refl _
    · -- a block: its condition and its body, each with less fuel
      rw [parseBlockStatement, parseBlockStatement]
      exact .bind (parseComparison_mono _ n) fun r => .bind (hbody _ _ _) fun r' => .refl _
    · rw [parseBody_succ, parseBody_succ]
      refine .bind (.refl _) fun t => ?_
      cases t with
      | tokRbrace => exact .refl _
      | _ =>
        -- a full body array is the same fault with any fuel
        refine .bind (hstatement i) fun r => ?_
        by_cases hp : ptr < 128
        · simp only [if_pos hp]; exact hbody _ _ _
        · simp only [if_neg hp]; exact .refl _

theorem parseStatement_mono (i : Nat) :
    FuelMono fun n => parseStatement n tokens i := fun n => (parseStatement_approx n).1 i

theorem parseBody_mono (body : List Node) (ptr i : Nat) :
    FuelMono fun n => parseBody n tokens body ptr i :=
  fun n => (parseStatement_approx n).2.2 body ptr i

theorem parserLoop_approx (n capacity : Nat) (statements : List Node) (count i : Nat) :
    Approx (parserLoop n tokens capacity statements count i)
      (parserLoop (n + 1) tokens capacity statements count i) := by
  induction n generalizing capacity statements count i with
  | zero => exact .out_left _
  | succ n ih =>
    rw [parserLoop_succ, parserLoop_succ]
    refine .bind (.refl _) fun t => ?_
    cases t with
    | tokEof => exact .refl _
    | _ =>
      refine .bind (parseStatement_mono i n) fun r => ?_
      by_cases hc : count < (if count = capacity then capacity * 2 else capacity)
      · simp only [if_pos hc]; exact ih _ _ _ _
      · simp only [if_neg hc]; exact .refl _

theorem parserLoop_mono (capacity : Nat) (statements : List Node) (count i : Nat) :
    FuelMono fun n => parserLoop n tokens capacity statements count i :=
  fun n => parserLoop_approx n capacity statements count i

/-- More fuel does not change what the parser returns. -/
theorem parser_mono : FuelMono fun n => parser n tokens :=
  parserLoop_mono 128 [] 0 0

/-! ## Answers without fuel -/

/-- `parse_comparison` started at `i` returns `node` and leaves the cursor at `j`. -/
def ComparisonAt (tokens : List Token) (i : Nat) (node : Node) (j : Nat) : Prop :=
  Yields (fun n => parseComparison n tokens i) (node, j)

/-- `parse_expression` started at `i` returns `node` and leaves the cursor at `j`. -/
def ExpressionAt (tokens : List Token) (i : Nat) (node : Node) (j : Nat) : Prop :=
  Yields (fun n => parseExpression n tokens i) (node, j)

/-- `parse_term` started at `i` returns `node` and leaves the cursor at `j`. -/
def TermAt (tokens : List Token) (i : Nat) (node : Node) (j : Nat) : Prop :=
  Yields (fun n => parseTerm n tokens i) (node, j)

/-- `parse_factor` started at `i` returns `node` and leaves the cursor at `j`. -/
def FactorAt (tokens : List Token) (i : Nat) (node : Node) (j : Nat) : Prop :=
  Yields (fun n => parseFactor n tokens i) (node, j)

/-- `parse_statement` started at `i` returns `node` and leaves the cursor at `j`. -/
def StatementAt (tokens : List Token) (i : Nat) (node : Node) (j : Nat) : Prop :=
  Yields (fun n => parseStatement n tokens i) (node, j)

/-- A binary loop entered at `i` with `left` returns `node` with the cursor at `j`. -/
def LoopAt (nodeOf : Token → Option NodeType) (operand : Nat → Nat → Parsed)
    (tokens : List Token) (left : Node) (i : Nat) (node : Node) (j : Nat) : Prop :=
  Yields (fun n => binaryLoop nodeOf (operand n) tokens n left i) (node, j)

section Loops

variable {nodeOf : Token → Option NodeType} {operand : Nat → Nat → Parsed}

/-- More fuel does not change the loop of a level, when it does not change its operands. -/
theorem binaryLoop_mono (hop : ∀ i, FuelMono fun n => operand n i) (left : Node)
    (i : Nat) : FuelMono fun n => binaryLoop nodeOf (operand n) tokens n left i :=
  fun n => binaryLoop_approx nodeOf (fun i => hop i n) (Nat.le_succ n) left i

/-- The loop ends at a token it does not handle. -/
theorem LoopAt.exit {left : Node} {i : Nat} {t : Token} (ht : tokens[i]? = some t)
    (hnode : nodeOf t = none) : LoopAt nodeOf operand tokens left i left i := by
  refine ⟨1, ?_⟩
  show binaryLoop nodeOf (operand 1) tokens 1 left i = .done (left, i)
  rw [binaryLoop, tokenAt_eq ht, done_bind, hnode]
  rfl

/-- One round: the operator at the cursor, then its right operand. -/
theorem LoopAt.round (hop : ∀ i, FuelMono fun n => operand n i) {left right node : Node}
    {i k j : Nat} {t : Token} {type : NodeType} (ht : tokens[i]? = some t)
    (hnode : nodeOf t = some type)
    (hright : Yields (fun n => operand n (i + 1)) (right, k))
    (hloop : LoopAt nodeOf operand tokens (binaryNode type left right) k node j) :
    LoopAt nodeOf operand tokens left i node j := by
  obtain ⟨n, hn⟩ := hright.of_le (hop (i + 1))
  obtain ⟨m, hm⟩ := hloop
  have hrest : Approx
      (binaryLoop nodeOf (operand m) tokens m (binaryNode type left right) k)
      (binaryLoop nodeOf (operand (max n m + 1)) tokens (max n m)
        (binaryNode type left right) k) :=
    binaryLoop_approx nodeOf
      (fun i => (hop i).of_le (Nat.le_succ_of_le (Nat.le_max_right n m)))
      (Nat.le_max_right n m) _ _
  refine ⟨max n m + 1, ?_⟩
  show binaryLoop nodeOf (operand (max n m + 1)) tokens (max n m + 1) left i = _
  rw [binaryLoop, tokenAt_eq ht, done_bind, hnode]
  dsimp only
  rw [hn (max n m + 1) (Nat.le_succ_of_le (Nat.le_max_left n m)), done_bind]
  exact hrest.done hm

end Loops

/-! ## The expression levels -/

/-- The loop of `parse_comparison`. -/
abbrev ComparisonLoopAt (tokens : List Token) :=
  LoopAt comparisonNode (fun n => parseExpression n tokens) tokens

/-- The loop of `parse_expression`. -/
abbrev ExpressionLoopAt (tokens : List Token) :=
  LoopAt expressionNode (fun n => parseTerm n tokens) tokens

/-- The loop of `parse_term`. -/
abbrev TermLoopAt (tokens : List Token) :=
  LoopAt termNode (fun n => parseExpression n tokens) tokens

section Levels

variable {i j k : Nat} {left node : Node}

/-- A level of the grammar: its first operand, then its loop. -/
theorem yields_level {nodeOf : Token → Option NodeType} {operand : Nat → Nat → Parsed}
    {first level : Nat → Parsed}
    (hlevel : ∀ n, level (n + 1) =
      first n >>= fun r => binaryLoop nodeOf (operand n) tokens n r.1 r.2)
    (hfirst : FuelMono first) (hop : ∀ i, FuelMono fun n => operand n i)
    (hleft : Yields first (left, k)) (hloop : LoopAt nodeOf operand tokens left k node j) :
    Yields level (node, j) := by
  have hbind := Yields.bind
    (k := fun (r : Node × Nat) n => binaryLoop nodeOf (operand n) tokens n r.1 r.2)
    hfirst (fun r => binaryLoop_mono hop r.1 r.2) hleft hloop
  exact .succ hlevel hbind

/-- A comparison is an expression and what the loop makes of it. -/
theorem ComparisonAt.intro (hleft : ExpressionAt tokens i left k)
    (hloop : ComparisonLoopAt tokens left k node j) : ComparisonAt tokens i node j :=
  yields_level (fun _ => rfl) (parseExpression_mono i) parseExpression_mono hleft hloop

/-- An expression is a term and what the loop makes of it. -/
theorem ExpressionAt.intro (hleft : TermAt tokens i left k)
    (hloop : ExpressionLoopAt tokens left k node j) : ExpressionAt tokens i node j :=
  yields_level (fun _ => rfl) (parseTerm_mono i) parseTerm_mono hleft hloop

/-- A term is a factor and what the loop makes of it. -/
theorem TermAt.intro (hleft : FactorAt tokens i left k)
    (hloop : TermLoopAt tokens left k node j) : TermAt tokens i node j :=
  yields_level (fun _ => rfl) (parseFactor_mono i) parseExpression_mono hleft hloop

/-- A name is a leaf; its `right` is left as `malloc` returned it. -/
theorem FactorAt.ident {x : Name} (ht : tokens[i]? = some (.tokIdent x)) :
    FactorAt tokens i { type := some .nodeIdent, name := some x, left := .null } (i + 1) := by
  refine ⟨1, ?_⟩
  show parseFactor 1 tokens i = _
  rw [parseFactor_succ, tokenAt_eq ht, done_bind]

/-- A number is a leaf with both its children set to null. -/
theorem FactorAt.num {v : CInt} (ht : tokens[i]? = some (.tokNum v)) :
    FactorAt tokens i
      { type := some .nodeNum, value := some v, left := .null, right := .null } (i + 1) := by
  refine ⟨1, ?_⟩
  show parseFactor 1 tokens i = _
  rw [parseFactor_succ, tokenAt_eq ht, done_bind]

/-- Whatever stands where `)` should be is stepped over. -/
theorem FactorAt.paren (ht : tokens[i]? = some .tokLparen)
    (hnode : ComparisonAt tokens (i + 1) node j) : FactorAt tokens i node (j + 1) := by
  obtain ⟨n, hn⟩ := hnode
  refine ⟨n + 1, ?_⟩
  show parseFactor (n + 1) tokens i = _
  rw [parseFactor_succ, tokenAt_eq ht, done_bind]
  dsimp only at hn ⊢
  rw [hn, done_bind]

/-- The tokens a factor begins with. -/
def Token.startsFactor : Token → Bool
  | .tokIdent _ | .tokNum _ | .tokLparen => true
  | _ => false

/-- On any other token the factor is an untouched leaf and nothing is consumed. -/
theorem FactorAt.missing {t : Token} (ht : tokens[i]? = some t)
    (hstart : t.startsFactor = false) : FactorAt tokens i {} i := by
  refine ⟨1, ?_⟩
  show parseFactor 1 tokens i = _
  rw [parseFactor_succ, tokenAt_eq ht, done_bind]
  cases t with
  | tokIdent x => cases hstart
  | tokNum v => cases hstart
  | tokLparen => cases hstart
  | _ => rfl

end Levels

/-! ## Statements -/

/-- The loop over a block's body, entered at `i` with `ptr` statements stored in
`body`, ends at `j` in front of `}` with `count` statements stored in `body'`. -/
def BodyAt (tokens : List Token) (body : List Node) (ptr i : Nat) (body' : List Node)
    (count j : Nat) : Prop :=
  Yields (fun n => parseBody n tokens body ptr i) (body', count, j)

/-- The loop of `parser`, entered at `i` with `count` statements stored. -/
def ParserLoopAt (tokens : List Token) (capacity : Nat) (statements : List Node)
    (count i : Nat) (result : ParserResult) : Prop :=
  Yields (fun n => parserLoop n tokens capacity statements count i) result

/-- `parser` returns `result`. -/
def ParserAt (tokens : List Token) (result : ParserResult) : Prop :=
  Yields (fun n => parser n tokens) result

/-- The tokens a statement begins with. -/
def Token.startsStatement : Token → Bool
  | .tokIdent _ | .tokPrint | .tokIf | .tokWhile => true
  | _ => false

section Statements

variable {i j k : Nat} {node : Node}

/-- An assignment: the name, `=` and a comparison. -/
theorem StatementAt.assign {x : Name} (hx : tokens[i]? = some (.tokIdent x))
    (heq : tokens[i + 1]? = some .tokEq) (hnode : ComparisonAt tokens (i + 2) node j) :
    StatementAt tokens i
      { type := some .nodeAssign,
        left := .ref { type := some .nodeIdent, name := some x, left := .null, right := .null },
        right := .ref node } j := by
  obtain ⟨n, hn⟩ := hnode
  refine ⟨n + 1, ?_⟩
  show parseStatement (n + 1) tokens i = _
  dsimp only at hn
  rw [parseStatement_succ, tokenAt_eq hx, done_bind]
  dsimp only
  rw [tokenAt_eq heq, done_bind]
  dsimp only
  rw [hn, done_bind]

theorem StatementAt.print (ht : tokens[i]? = some .tokPrint)
    (hnode : ComparisonAt tokens (i + 1) node j) :
    StatementAt tokens i { type := some .nodePrint, left := .ref node, right := .null } j := by
  obtain ⟨n, hn⟩ := hnode
  refine ⟨n + 1, ?_⟩
  show parseStatement (n + 1) tokens i = _
  dsimp only at hn
  rw [parseStatement_succ, tokenAt_eq ht, done_bind]
  dsimp only
  rw [hn, done_bind]

/-- The node types of the block statements, by their keyword. -/
def blockNode : Token → Option NodeType
  | .tokIf => some .nodeIf
  | .tokWhile => some .nodeWhile
  | _ => none

/-- `if` and `while`: whatever stands where `{` should be is stepped over. -/
theorem StatementAt.block {t : Token} {type : NodeType} {body : List Node} {count : Nat}
    (ht : tokens[i]? = some t) (htype : blockNode t = some type)
    (hcond : ComparisonAt tokens (i + 1) node k)
    (hbody : BodyAt tokens [] 0 (k + 1) body count j) :
    StatementAt tokens i
      { type := some type, left := .ref node, body := some body,
        bodyCount := some count } (j + 1) := by
  obtain ⟨n, hn⟩ := hcond.of_le (parseComparison_mono (i + 1))
  obtain ⟨m, hm⟩ := hbody.of_le (parseBody_mono [] 0 (k + 1))
  have hblock : parseBlockStatement type (max n m + 1) tokens i
      = .done ({ type := some type, left := .ref node, body := some body,
                 bodyCount := some count }, j + 1) := by
    have hn' := hn (max n m) (Nat.le_max_left n m)
    have hm' := hm (max n m) (Nat.le_max_right n m)
    rw [parseBlockStatement, hn', done_bind]
    dsimp only
    rw [hm', done_bind]
    rfl
  refine ⟨max n m + 2, ?_⟩
  show parseStatement (max n m + 1 + 1) tokens i = _
  rw [parseStatement_succ, tokenAt_eq ht, done_bind]
  cases t with
  | tokIf =>
    obtain rfl : NodeType.nodeIf = type := Option.some.inj htype
    exact hblock
  | tokWhile =>
    obtain rfl : NodeType.nodeWhile = type := Option.some.inj htype
    exact hblock
  | _ => cases htype

/-- The body ends in front of the `}`, which is not taken. -/
theorem BodyAt.close {body : List Node} {ptr : Nat} (ht : tokens[i]? = some .tokRbrace) :
    BodyAt tokens body ptr i body ptr i := by
  refine ⟨1, ?_⟩
  show parseBody 1 tokens body ptr i = _
  rw [parseBody_succ, tokenAt_eq ht, done_bind]

/-- A statement of the body goes to the next place of its array, if there is one. -/
theorem BodyAt.statement {body body' : List Node} {ptr count : Nat} {t : Token}
    (ht : tokens[i]? = some t) (hbrace : t ≠ .tokRbrace)
    (hnode : StatementAt tokens i node k) (hptr : ptr < 128)
    (hrest : BodyAt tokens (body ++ [node]) (ptr + 1) k body' count j) :
    BodyAt tokens body ptr i body' count j := by
  obtain ⟨n, hn⟩ := hnode.of_le (parseStatement_mono i)
  obtain ⟨m, hm⟩ := hrest.of_le (parseBody_mono _ _ k)
  refine ⟨max n m + 1, ?_⟩
  show parseBody (max n m + 1) tokens body ptr i = _
  have hn' := hn (max n m) (Nat.le_max_left n m)
  rw [parseBody_of_ne ht hbrace, hn', done_bind, if_pos hptr]
  exact hm _ (Nat.le_max_right n m)

theorem ParserLoopAt.eof {capacity : Nat} {statements : List Node} {count : Nat}
    (ht : tokens[i]? = some .tokEof) :
    ParserLoopAt tokens capacity statements count i ⟨statements, count, i⟩ := by
  refine ⟨1, ?_⟩
  show parserLoop 1 tokens capacity statements count i = _
  rw [parserLoop_succ, tokenAt_eq ht, done_bind]

/-- One round of the top-level loop: the array has room, or is doubled first. -/
theorem ParserLoopAt.statement {capacity : Nat} {statements : List Node} {count : Nat}
    {result : ParserResult} {t : Token} (ht : tokens[i]? = some t) (heof : t ≠ .tokEof)
    (hnode : StatementAt tokens i node k)
    (hroom : count < (if count = capacity then capacity * 2 else capacity))
    (hrest : ParserLoopAt tokens (if count = capacity then capacity * 2 else capacity)
      (statements ++ [node]) (count + 1) k result) :
    ParserLoopAt tokens capacity statements count i result := by
  obtain ⟨n, hn⟩ := hnode.of_le (parseStatement_mono i)
  obtain ⟨m, hm⟩ := hrest.of_le (parserLoop_mono _ _ _ k)
  refine ⟨max n m + 1, ?_⟩
  show parserLoop (max n m + 1) tokens capacity statements count i = _
  have hn' := hn (max n m) (Nat.le_max_left n m)
  rw [parserLoop_of_ne ht heof, hn', done_bind, if_pos hroom]
  exact hm _ (Nat.le_max_right n m)

end Statements

/-! ## How a parsing function can return -/

end Bytecode

end SystemsProjects

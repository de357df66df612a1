import SystemsProjects.Bytecode.Rendering

/-!
# The language the parser accepts

- `Sentence`: the grammar `stmt*` with `stmt ::= IDENT '=' cmp | 'print' cmp |
  ('if' | 'while') cmp '{' stmt* '}'`, where `cmp` is a chain of factors.
- `LooseSentence`: what the parser reads without complaint. An operand may be
  missing in front of a token that cannot begin one, and any one token may stand
  where `)` or `{` is expected.
- `parserAt_iff_loose`: the parser returns exactly on the loose sentences. A loose
  phrase is parsed by the rules of the parsing functions; conversely what a parsing
  function has read is a loose phrase, by induction on its fuel.

The two directions use different inductions. That a loose sentence is parsed goes along its
derivation, with one rule of `ParserRules` for each production. That the parser reads nothing
else goes along the fuel of the run: a call that returns has gone one of the ways the source
has, and each of them is a production. The position at which a phrase ends is part of the
grammar, since it is what the two sides must agree on.
-/

namespace SystemsProjects

namespace Bytecode

open Fueled

/-! ## The grammar -/

mutual

/-- `cmp ::= factor (operator factor)*` -/
inductive IsCmp : List Token → Prop where
  | factor {ts : List Token} (h : IsFactor ts) : IsCmp ts
  | binary {ts us : List Token} (op : BinOp) (hleft : IsCmp ts) (hright : IsFactor us) :
    IsCmp (ts ++ op.token :: us)

/-- `factor ::= IDENT | NUM | '(' cmp ')'` -/
inductive IsFactor : List Token → Prop where
  | ident (x : Name) : IsFactor [.tokIdent x]
  | num (v : CInt) : IsFactor [.tokNum v]
  | paren {ts : List Token} (h : IsCmp ts) :
    IsFactor (Token.tokLparen :: ts ++ [Token.tokRparen])

end

mutual

/-- `stmt ::= IDENT '=' cmp | 'print' cmp | ('if' | 'while') cmp '{' stmt* '}'` -/
inductive IsStmt : List Token → Prop where
  | assign (x : Name) {ts : List Token} (h : IsCmp ts) :
    IsStmt (.tokIdent x :: .tokEq :: ts)
  | print {ts : List Token} (h : IsCmp ts) : IsStmt (.tokPrint :: ts)
  | block {t : Token} {ts ss : List Token} (ht : t = .tokIf ∨ t = .tokWhile)
    (hcond : IsCmp ts) (hbody : IsStmts ss) :
    IsStmt (t :: (ts ++ Token.tokLbrace :: (ss ++ [Token.tokRbrace])))

/-- `stmt*` -/
inductive IsStmts : List Token → Prop where
  | nil : IsStmts []
  | cons {s ss : List Token} (hs : IsStmt s) (hss : IsStmts ss) : IsStmts (s ++ ss)

end

/-- `program ::= stmt*`, up to the end of the file. -/
def Sentence (tokens : List Token) : Prop :=
  ∃ ss, IsStmts ss ∧ tokens = ss ++ [.tokEof]

/-! ## The looser grammar

Its rules speak about the positions `i` and `j` at which a phrase of a fixed token
list begins and ends. -/

variable {tokens : List Token}

mutual

/-- A factor, or nothing in front of a token that cannot begin one. What stands
where `)` should be is part of the factor, whatever it is. -/
inductive LooseFactor (tokens : List Token) : Nat → Nat → Prop where
  | ident {i : Nat} {x : Name} (h : tokens[i]? = some (.tokIdent x)) :
    LooseFactor tokens i (i + 1)
  | num {i : Nat} {v : CInt} (h : tokens[i]? = some (.tokNum v)) :
    LooseFactor tokens i (i + 1)
  | paren {i j : Nat} (h : tokens[i]? = some .tokLparen)
    (hcmp : LooseCmp tokens (i + 1) j) : LooseFactor tokens i (j + 1)
  | missing {i : Nat} {t : Token} (h : tokens[i]? = some t)
    (hstart : t.startsFactor = false) : LooseFactor tokens i i

/-- Operators, each with the factor behind it. -/
inductive LooseRun (tokens : List Token) : Nat → Nat → Prop where
  | nil (k : Nat) : LooseRun tokens k k
  | cons {k k' j : Nat} {op : BinOp} (hop : tokens[k]? = some op.token)
    (hfactor : LooseFactor tokens (k + 1) k') (hrest : LooseRun tokens k' j) :
    LooseRun tokens k j

/-- A longest chain of loose factors. -/
inductive LooseCmp (tokens : List Token) : Nat → Nat → Prop where
  | chain {i k j : Nat} {t : Token} (hfactor : LooseFactor tokens i k)
    (hrun : LooseRun tokens k j) (hend : tokens[j]? = some t) (hop : t.binOp? = none) :
    LooseCmp tokens i j

end

mutual

/-- A statement. What stands where `{` should be is stepped over, and a block has
at most 128 statements. -/
inductive LooseStmt (tokens : List Token) : Nat → Nat → Prop where
  | assign {i j : Nat} {x : Name} (hx : tokens[i]? = some (.tokIdent x))
    (heq : tokens[i + 1]? = some .tokEq) (hcmp : LooseCmp tokens (i + 2) j) :
    LooseStmt tokens i j
  | print {i j : Nat} (ht : tokens[i]? = some .tokPrint)
    (hcmp : LooseCmp tokens (i + 1) j) : LooseStmt tokens i j
  | block {i k j n : Nat} {t : Token} (ht : tokens[i]? = some t)
    (hkey : t = .tokIf ∨ t = .tokWhile) (hcmp : LooseCmp tokens (i + 1) k)
    (hbody : LooseBody tokens n (k + 1) j) (hn : n ≤ 128) : LooseStmt tokens i (j + 1)

/-- `n` statements up to the next `}`. -/
inductive LooseBody (tokens : List Token) : Nat → Nat → Nat → Prop where
  | close {i : Nat} (ht : tokens[i]? = some .tokRbrace) : LooseBody tokens 0 i i
  | cons {n i k j : Nat} {t : Token} (ht : tokens[i]? = some t) (hbrace : t ≠ .tokRbrace)
    (hstmt : LooseStmt tokens i k) (hrest : LooseBody tokens n k j) :
    LooseBody tokens (n + 1) i j

end

mutual

/-- A loose factor is parsed: the tree is built along the derivation. -/
theorem LooseFactor.factorAt {i j : Nat} : LooseFactor tokens i j →
    ∃ f, FactorAt tokens i f j
  | .ident h => ⟨_, .ident h⟩
  | .num h => ⟨_, .num h⟩
  | .paren h hcmp =>
    let ⟨node, hnode⟩ := hcmp.comparisonAt
    ⟨node, .paren h hnode⟩
  | .missing h hstart => ⟨_, .missing h hstart⟩

/-- A loose run of operators and factors is parsed when a token that is no operator follows. -/
theorem LooseRun.tailAt {k j : Nat} {t : Token} (hend : tokens[j]? = some t)
    (hop : t.binOp? = none) : LooseRun tokens k j → ∃ rest, TailAt tokens k rest j
  | .nil _ => ⟨[], .nil hend hop⟩
  | .cons hk hfactor hrest =>
    let ⟨_, hg⟩ := hfactor.factorAt
    let ⟨_, htail⟩ := hrest.tailAt hend hop
    ⟨_, .cons hk hg htail⟩

/-- A loose comparison is parsed, whatever the nesting of its operators becomes. -/
theorem LooseCmp.comparisonAt {i j : Nat} : LooseCmp tokens i j →
    ∃ node, ComparisonAt tokens i node j
  | .chain hfactor hrun hend hop =>
    let ⟨_, hf⟩ := hfactor.factorAt
    let ⟨_, htail⟩ := hrun.tailAt hend hop
    ⟨_, ChainAt.comparisonAt ⟨_, hf, htail⟩⟩

end

theorem blockNode_of_key {t : Token} (h : t = .tokIf ∨ t = .tokWhile) :
    ∃ type, blockNode t = some type := by
  rcases h with rfl | rfl
  · exact ⟨_, rfl⟩
  · exact ⟨_, rfl⟩

mutual

theorem LooseStmt.statementAt {i j : Nat} : LooseStmt tokens i j →
    ∃ node, StatementAt tokens i node j
  | .assign hx heq hcmp =>
    let ⟨_, hnode⟩ := hcmp.comparisonAt
    ⟨_, .assign hx heq hnode⟩
  | .print ht hcmp =>
    let ⟨_, hnode⟩ := hcmp.comparisonAt
    ⟨_, .print ht hnode⟩
  | .block ht hkey hcmp hbody hn =>
    let ⟨_, htype⟩ := blockNode_of_key hkey
    let ⟨_, hcond⟩ := hcmp.comparisonAt
    let ⟨_, hbody⟩ := hbody.bodyAt [] 0 (by omega)
    ⟨_, .block ht htype hcond hbody⟩

/-- A loose body is parsed as long as the array of its block has room. -/
theorem LooseBody.bodyAt {n i j : Nat} (body : List Node) (ptr : Nat)
    (hptr : ptr + n ≤ 128) :
    LooseBody tokens n i j → ∃ body', BodyAt tokens body ptr i body' (ptr + n) j
  | .close ht => ⟨body, .close ht⟩
  | .cons (n := n) ht hbrace hstmt hrest => by
    obtain ⟨node, hnode⟩ := hstmt.statementAt
    obtain ⟨body', hbody⟩ := hrest.bodyAt (body ++ [node]) (ptr + 1) (by omega)
    have hcount : ptr + (n + 1) = ptr + 1 + n := by omega
    rw [hcount]
    exact ⟨body', .statement ht hbrace hnode (by omega) hbody⟩

end

theorem LooseRun.append {i k j : Nat} :
    LooseRun tokens i k → LooseRun tokens k j → LooseRun tokens i j
  | .nil _, h => h
  | .cons hop hfactor hrest, h => .cons hop hfactor (hrest.append h)

/-- From `i` to `j` stands a chain of loose factors, in front of a token that
satisfies `Q`. -/
def LoosePhrase (tokens : List Token) (Q : Token → Prop) (i j : Nat) : Prop :=
  ∃ k t, LooseFactor tokens i k ∧ LooseRun tokens k j ∧ tokens[j]? = some t ∧ Q t

/-- A phrase may be followed by more tokens than it asks for. -/
theorem LoosePhrase.imp {Q Q' : Token → Prop} {i j : Nat} (h : LoosePhrase tokens Q i j)
    (hQ : ∀ t, Q t → Q' t) : LoosePhrase tokens Q' i j := by
  obtain ⟨k, t, hfactor, hrun, ht, hq⟩ := h
  exact ⟨k, t, hfactor, hrun, ht, hQ t hq⟩

/-- A loop over operators reads a run of factors and ends in front of a token it does
not handle. -/
theorem binaryLoop_loose {nodeOf : Token → Option NodeType} {operand : Nat → Parsed}
    {Q : Token → Prop} (hnode : ∀ t type, nodeOf t = some type → ∃ op, t = BinOp.token op)
    (hoperand : ∀ i r, operand i = .done r → LoosePhrase tokens Q i r.2) :
    ∀ (n : Nat) (left : Node) (i : Nat) (r : Node × Nat),
      binaryLoop nodeOf operand tokens n left i = .done r →
      (∀ t, tokens[i]? = some t → Q t) →
      ∃ t, LooseRun tokens i r.2 ∧ tokens[r.2]? = some t ∧ nodeOf t = none ∧ Q t := by
  intro n
  induction n with
  | zero =>
    intro left i r h _
    cases h
  | succ n ih =>
    intro left i r h hQ
    rw [binaryLoop, bind_eq_done] at h
    obtain ⟨t, ht, h⟩ := h
    rw [tokenAt_eq_done] at ht
    cases htype : nodeOf t with
    | none =>
      rw [htype] at h
      obtain rfl : (left, i) = r := Fueled.done.inj h
      exact ⟨t, .nil i, ht, htype, hQ t ht⟩
    | some type =>
      rw [htype] at h
      dsimp only at h
      -- an operator of this level, its operand, and the rest of the loop
      obtain ⟨⟨right, k⟩, hright, h⟩ := bind_eq_done.mp h
      obtain ⟨op, rfl⟩ := hnode t type htype
      obtain ⟨m, u, hfactor, hrun, hu, hq⟩ := hoperand _ _ hright
      -- behind the operand stands the token that it has stopped at
      have hQk : ∀ v, tokens[k]? = some v → Q v := by
        intro v hv
        rw [hu] at hv
        obtain rfl : u = v := Option.some.inj hv
        exact hq
      obtain ⟨v, hrest, hend⟩ := ih _ k r h hQk
      exact ⟨v, .cons ht hfactor (hrun.append hrest), hend⟩

/-- A level of the grammar: a phrase, then the level's loop. -/
theorem level_loose {nodeOf : Token → Option NodeType} {first : Parsed}
    {operand : Nat → Parsed} {Q : Token → Prop} {n i : Nat} {r : Node × Nat}
    (hnode : ∀ t type, nodeOf t = some type → ∃ op, t = BinOp.token op)
    (hfirst : ∀ r, first = .done r → ∃ k, LooseFactor tokens i k ∧
      LooseRun tokens k r.2 ∧ ∀ t, tokens[r.2]? = some t → Q t)
    (hoperand : ∀ i r, operand i = .done r → LoosePhrase tokens Q i r.2)
    (h : (first >>= fun r => binaryLoop nodeOf operand tokens n r.1 r.2) = .done r) :
    LoosePhrase tokens (fun t => nodeOf t = none ∧ Q t) i r.2 := by
  obtain ⟨r', hr', hloop⟩ := bind_eq_done.mp h
  obtain ⟨k, hfactor, hrun, hQ⟩ := hfirst r' hr'
  obtain ⟨t, hrest, ht, hend⟩ := binaryLoop_loose hnode hoperand n _ _ _ hloop hQ
  exact ⟨k, t, hfactor, hrun.append hrest, ht, hend⟩

/-- A phrase in front of a token with property `Q`, as the first part of a level. -/
theorem LoosePhrase.first {Q : Token → Prop} {i j : Nat} (h : LoosePhrase tokens Q i j) :
    ∃ k, LooseFactor tokens i k ∧ LooseRun tokens k j ∧ ∀ t, tokens[j]? = some t → Q t := by
  obtain ⟨k, u, hfactor, hrun, hu, hq⟩ := h
  refine ⟨k, hfactor, hrun, fun t ht => ?_⟩
  rw [hu] at ht
  obtain rfl : u = t := Option.some.inj ht
  exact hq

/-- Only operators make the loop of a level go on. -/
theorem comparisonNode_eq_some (t : Token) (type : NodeType)
    (h : comparisonNode t = some type) : ∃ op, t = BinOp.token op := by
  cases t with
  | tokEqeq => exact ⟨.eqeq, rfl⟩
  | tokGt => exact ⟨.gt, rfl⟩
  | tokLt => exact ⟨.lt, rfl⟩
  | _ => cases h

theorem expressionNode_eq_some (t : Token) (type : NodeType)
    (h : expressionNode t = some type) : ∃ op, t = BinOp.token op := by
  cases t with
  | tokPlus => exact ⟨.add, rfl⟩
  | tokMinus => exact ⟨.sub, rfl⟩
  | _ => cases h

theorem termNode_eq_some (t : Token) (type : NodeType) (h : termNode t = some type) :
    ∃ op, t = BinOp.token op := by
  cases t with
  | tokSlash => exact ⟨.div, rfl⟩
  | tokStar => exact ⟨.mul, rfl⟩
  | _ => cases h

/-- A token that none of the three loops handles is no operator. -/
theorem Token.binOp?_eq_none {t : Token} (hcomparison : comparisonNode t = none)
    (hexpression : expressionNode t = none) (hterm : termNode t = none) :
    t.binOp? = none := by
  cases t with
  | tokEqeq => cases hcomparison
  | tokGt => cases hcomparison
  | tokLt => cases hcomparison
  | tokPlus => cases hexpression
  | tokMinus => cases hexpression
  | tokStar => cases hterm
  | tokSlash => cases hterm
  | _ => rfl

/-- What each expression level reads, by induction on the fuel. A product ends where
no `*` or `/` follows, a sum where none of `+ - * /` follows. -/
theorem parse_loose (n : Nat) :
    (∀ i r, parseComparison n tokens i = .done r → LooseCmp tokens i r.2) ∧
    (∀ i r, parseExpression n tokens i = .done r →
      LoosePhrase tokens (fun t => expressionNode t = none ∧ termNode t = none) i r.2) ∧
    (∀ i r, parseTerm n tokens i = .done r →
      LoosePhrase tokens (fun t => termNode t = none) i r.2) ∧
    (∀ i r, parseFactor n tokens i = .done r → LooseFactor tokens i r.2) := by
  induction n with
  | zero =>
    refine ⟨fun i r h => ?_, fun i r h => ?_, fun i r h => ?_, fun i r h => ?_⟩
    · cases h
    · cases h
    · cases h
    · cases h
  | succ n ih =>
    obtain ⟨hcomparison, hexpression, hterm, hfactor⟩ := ih
    refine ⟨fun i r h => ?_, fun i r h => ?_, fun i r h => ?_, fun i r h => ?_⟩
    · have hphrase := level_loose comparisonNode_eq_some
        (fun r' hr' => (hexpression i r' hr').first) hexpression h
      obtain ⟨k, t, hf, hrun, ht, hc, he, hm⟩ := hphrase
      exact .chain hf hrun ht (Token.binOp?_eq_none hc he hm)
    · exact level_loose expressionNode_eq_some (fun r' hr' => (hterm i r' hr').first) hterm h
    · -- the operands of `*` and `/` are whole sums: their end tells nothing here
      have hphrase := level_loose (Q := fun _ => True) termNode_eq_some
        (fun r' hr' => ⟨r'.2, hfactor i r' hr', .nil _, fun _ _ => trivial⟩)
        (fun i r' hr' => (hexpression i r' hr').imp fun _ _ => trivial) h
      exact hphrase.imp fun t ht => ht.1
    · rw [parseFactor_succ] at h
      -- a factor, or nothing in front of any other token
      obtain ⟨t, ht, h⟩ := bind_eq_done.mp h
      rw [tokenAt_eq_done] at ht
      cases t with
      | tokIdent x =>
        obtain rfl := Fueled.done.inj h
        exact .ident ht
      | tokNum v =>
        obtain rfl := Fueled.done.inj h
        exact .num ht
      | tokLparen =>
        obtain ⟨r', hr', h⟩ := bind_eq_done.mp h
        obtain rfl := Fueled.done.inj h
        exact .paren ht (hcomparison _ _ hr')
      | _ =>
        obtain rfl := Fueled.done.inj h
        exact .missing ht rfl

end Bytecode

end SystemsProjects

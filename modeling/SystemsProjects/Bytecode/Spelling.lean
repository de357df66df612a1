import SystemsProjects.Bytecode.Language

/-!
# Programs and the tokens that spell them

The grammar of `Language` with the trees its phrases stand for, and what the parser makes of a
phrase. The body of an `if` or a `while` is stored in an array of 128 pointers that never grows.

- `SpellsProgram prog tokens`: the tokens are a sentence of the grammar, which stands for `prog`.
- `Collects fit f good`: the blocks fit and `f` returns what it should, or they do not and `f`
  writes behind the end of a body array.
- `SpellsStmt.collects`, `SpellsStmts.collects`: which of the two it is, by induction on the
  phrase; the number of statements already stored is a parameter of the loops.
- `blocksHold_iff`: on a spelled program the arrays hold what they should exactly when no block
  has more than 128 statements.

A body array that overflows is a fault of the model, so the parser returns on a spelled program
only when its blocks fit. To say both at once, `Collects` has two cases; each rule is stated
with it and the induction goes through for all phrases, fitting or not. At the top level the
array grows, and there is no condition.
-/

namespace SystemsProjects

namespace Bytecode

open Fueled

/-! ## The grammar, with its trees -/

mutual

/-- `cmp ::= factor (operator factor)*`, with the chain of its factors. -/
inductive SpellsChain : Chain → List Token → Prop where
  | factor {e : Expr} {ts : List Token} (h : SpellsFactor e ts) : SpellsChain (e, []) ts
  | binary {c : Chain} {e : Expr} {ts us : List Token} (op : BinOp) (hleft : SpellsChain c ts)
    (hright : SpellsFactor e us) : SpellsChain (c.1, c.2 ++ [(op, e)]) (ts ++ op.token :: us)

/-- `factor ::= IDENT | NUM | '(' cmp ')'` -/
inductive SpellsFactor : Expr → List Token → Prop where
  | ident (x : Name) : SpellsFactor (.ident x) [.tokIdent x]
  | num (v : CInt) : SpellsFactor (.num v) [.tokNum v]
  | paren {c : Chain} {ts : List Token} (h : SpellsChain c ts) :
    SpellsFactor c.tree (Token.tokLparen :: ts ++ [Token.tokRparen])

end

mutual

/-- `stmt ::= IDENT '=' cmp | 'print' cmp | ('if' | 'while') cmp '{' stmt* '}'` -/
inductive SpellsStmt : Stmt → List Token → Prop where
  | assign (x : Name) {c : Chain} {ts : List Token} (h : SpellsChain c ts) :
    SpellsStmt (.assign x c.tree) (.tokIdent x :: .tokEq :: ts)
  | print {c : Chain} {ts : List Token} (h : SpellsChain c ts) :
    SpellsStmt (.print c.tree) (.tokPrint :: ts)
  | ifStmt {c : Chain} {b : List Stmt} {ts ss : List Token} (hcond : SpellsChain c ts)
    (hbody : SpellsStmts b ss) :
    SpellsStmt (.ifStmt c.tree b) (.tokIf :: (ts ++ Token.tokLbrace :: (ss ++ [Token.tokRbrace])))
  | whileStmt {c : Chain} {b : List Stmt} {ts ss : List Token} (hcond : SpellsChain c ts)
    (hbody : SpellsStmts b ss) :
    SpellsStmt (.whileStmt c.tree b)
      (.tokWhile :: (ts ++ Token.tokLbrace :: (ss ++ [Token.tokRbrace])))

/-- `stmt*` -/
inductive SpellsStmts : List Stmt → List Token → Prop where
  | nil : SpellsStmts [] []
  | cons {s : Stmt} {ss : List Stmt} {ts us : List Token} (hs : SpellsStmt s ts)
    (hss : SpellsStmts ss us) : SpellsStmts (s :: ss) (ts ++ us)

end

/-- `program ::= stmt*`, up to the end of the file. -/
def SpellsProgram (prog : List Stmt) (tokens : List Token) : Prop :=
  ∃ ts, SpellsStmts prog ts ∧ tokens = ts ++ [.tokEof]

/-! ### The trees are those of the grammar -/

mutual

/-- What the grammar derives is spelt by some chain. -/
theorem IsCmp.exists_chain {ts : List Token} : IsCmp ts → ∃ c, SpellsChain c ts
  | .factor h =>
    let ⟨_, he⟩ := h.exists_expr
    ⟨_, .factor he⟩
  | .binary op hleft hright =>
    let ⟨_, hc⟩ := hleft.exists_chain
    let ⟨_, he⟩ := hright.exists_expr
    ⟨_, .binary op hc he⟩

theorem IsFactor.exists_expr {ts : List Token} : IsFactor ts → ∃ e, SpellsFactor e ts
  | .ident x => ⟨_, .ident x⟩
  | .num v => ⟨_, .num v⟩
  | .paren h =>
    let ⟨_, hc⟩ := h.exists_chain
    ⟨_, .paren hc⟩

end

mutual

theorem IsStmt.exists_stmt {ts : List Token} : IsStmt ts → ∃ s, SpellsStmt s ts
  | .assign x h =>
    let ⟨_, hc⟩ := h.exists_chain
    ⟨_, .assign x hc⟩
  | .print h =>
    let ⟨_, hc⟩ := h.exists_chain
    ⟨_, .print hc⟩
  | .block ht hcond hbody => by
    obtain ⟨c, hc⟩ := hcond.exists_chain
    obtain ⟨b, hb⟩ := hbody.exists_stmts
    rcases ht with rfl | rfl
    · exact ⟨_, .ifStmt hc hb⟩
    · exact ⟨_, .whileStmt hc hb⟩

theorem IsStmts.exists_stmts {ts : List Token} : IsStmts ts → ∃ ss, SpellsStmts ss ts
  | .nil => ⟨_, .nil⟩
  | .cons hs hss =>
    let ⟨_, h⟩ := hs.exists_stmt
    let ⟨_, h'⟩ := hss.exists_stmts
    ⟨_, .cons h h'⟩

end

mutual

/-- What spells a chain is derived by the grammar. -/
theorem SpellsChain.isCmp {c : Chain} {ts : List Token} : SpellsChain c ts → IsCmp ts
  | .factor h => .factor h.isFactor
  | .binary op hleft hright => .binary op hleft.isCmp hright.isFactor

theorem SpellsFactor.isFactor {e : Expr} {ts : List Token} : SpellsFactor e ts → IsFactor ts
  | .ident x => .ident x
  | .num v => .num v
  | .paren h => .paren h.isCmp

end

mutual

theorem SpellsStmt.isStmt {s : Stmt} {ts : List Token} : SpellsStmt s ts → IsStmt ts
  | .assign x h => .assign x h.isCmp
  | .print h => .print h.isCmp
  | .ifStmt hcond hbody => .block (.inl rfl) hcond.isCmp hbody.isStmts
  | .whileStmt hcond hbody => .block (.inr rfl) hcond.isCmp hbody.isStmts

theorem SpellsStmts.isStmts {ss : List Stmt} {ts : List Token} : SpellsStmts ss ts → IsStmts ts
  | .nil => .nil
  | .cons hs hss => .cons hs.isStmt hss.isStmts

end

/-- The sentences are the token lists that spell a program. -/
theorem sentence_iff_exists_program {tokens : List Token} :
    Sentence tokens ↔ ∃ prog, SpellsProgram prog tokens := by
  constructor
  · rintro ⟨ts, hts, rfl⟩
    obtain ⟨prog, hprog⟩ := hts.exists_stmts
    exact ⟨prog, ts, hprog, rfl⟩
  · rintro ⟨prog, ts, hts, rfl⟩
    exact ⟨ts, hts.isStmts, rfl⟩

/-- Copies of one statement. -/
theorem SpellsStmts.replicate {s : Stmt} {ts : List Token} (h : SpellsStmt s ts) (n : Nat) :
    SpellsStmts (List.replicate n s) (List.replicate n ts).flatten := by
  induction n with
  | zero => exact .nil
  | succ n ih => exact .cons h ih

/-! ## Where a phrase ends -/

/-- The list goes on with a token that no expression takes. -/
def EndsExpr (rest : List Token) : Prop := ∃ t ts, rest = t :: ts ∧ t.binOp? = none

/-- The first token of a statement ends the expression in front of it. -/
theorem Token.binOp?_of_startsStatement {t : Token} (h : t.startsStatement = true) :
    t.binOp? = none := by
  cases t <;> first | rfl | cases h

/-- A statement begins with a token that starts one. -/
theorem IsStmt.head {s : List Token} (h : IsStmt s) :
    ∃ t ts, s = t :: ts ∧ t.startsStatement = true := by
  cases h with
  | assign x h => exact ⟨_, _, rfl, rfl⟩
  | print h => exact ⟨_, _, rfl, rfl⟩
  | @block t ts ss ht hcond hbody =>
    rcases ht with rfl | rfl
    · exact ⟨_, _, rfl, rfl⟩
    · exact ⟨_, _, rfl, rfl⟩

/-- In front of statements, or of what follows them, an expression ends. -/
theorem IsStmts.endsExpr {ss rest : List Token} (h : IsStmts ss) (hrest : EndsExpr rest) :
    EndsExpr (ss ++ rest) := by
  cases h with
  | nil => exact hrest
  | cons hs hss =>
    obtain ⟨t, ts, rfl, ht⟩ := hs.head
    exact ⟨t, _, rfl, Token.binOp?_of_startsStatement ht⟩

/-! ## The nodes of a program -/

mutual

/-- The node that `parse_statement` builds for a statement. A block is stored from the first
entry of its array on, and counted. -/
inductive Built : Stmt → Node → Prop where
  | assign {x : Name} {e : Expr} {node : Node} (h : node.Reads e) :
    Built (.assign x e)
      { type := some .nodeAssign,
        left := .ref { type := some .nodeIdent, name := some x, left := .null, right := .null },
        right := .ref node }
  | print {e : Expr} {node : Node} (h : node.Reads e) :
    Built (.print e) { type := some .nodePrint, left := .ref node, right := .null }
  | ifStmt {c : Expr} {b : List Stmt} {cond : Node} {body : List Node} (hcond : cond.Reads c)
    (hbody : BuiltAll b body) :
    Built (.ifStmt c b)
      { type := some .nodeIf, left := .ref cond, body := some body, bodyCount := some b.length }
  | whileStmt {c : Expr} {b : List Stmt} {cond : Node} {body : List Node} (hcond : cond.Reads c)
    (hbody : BuiltAll b body) :
    Built (.whileStmt c b)
      { type := some .nodeWhile, left := .ref cond, body := some body, bodyCount := some b.length }

/-- The nodes of the statements, one by one. -/
inductive BuiltAll : List Stmt → List Node → Prop where
  | nil : BuiltAll [] []
  | cons {s : Stmt} {ss : List Stmt} {node : Node} {nodes : List Node} (h : Built s node)
    (hrest : BuiltAll ss nodes) : BuiltAll (s :: ss) (node :: nodes)

end

theorem BuiltAll.length_eq : ∀ {ss : List Stmt} {nodes : List Node}, BuiltAll ss nodes →
    nodes.length = ss.length
  | _, _, .nil => rfl
  | _, _, .cons _ hrest => by rw [List.length_cons, List.length_cons, hrest.length_eq]

/-- The nodes stand for the statements, one by one. -/
def NodesRead (nodes : List Node) (ss : List Stmt) : Prop :=
  List.Forall₂ (fun (n : Node) s => n.stmt? = some s) nodes ss

/-- An array of nodes that can be read is read back as the statements. -/
theorem NodesRead.stmtsUpTo? {nodes : List Node} {ss : List Stmt}
    (h : NodesRead nodes ss) : Node.stmtsUpTo? nodes ss.length = some ss := by
  induction h with
  | nil => rfl
  | @cons n s nodes ss hn _ ih =>
    rw [List.length_cons, Node.stmtsUpTo?, hn, ih]

/-! The fields the parser sets are those the statement is read back from. -/

theorem Node.stmt?_assign {leaf node : Node} {x : Name} {e : Expr}
    (hx : leaf.name = some x) (he : node.Reads e) :
    ({ type := some .nodeAssign, left := .ref leaf, right := .ref node } : Node).stmt?
      = some (.assign x e) := by
  simp only [Node.stmt?, Node.ptrName?, Node.ptrExpr?, hx]
  rw [he]

/-- The node of a `print` is read back, whatever its right child is. -/
theorem Node.stmt?_print {node : Node} {right : Ptr Node} {e : Expr} (he : node.Reads e) :
    ({ type := some .nodePrint, left := .ref node, right := right } : Node).stmt?
      = some (.print e) := by
  simp only [Node.stmt?, Node.ptrExpr?]
  rw [he]
  rfl

theorem Node.stmt?_if {cond : Node} {body : List Node} {c : Expr} {b : List Stmt}
    (hc : cond.Reads c) (hb : NodesRead body b) :
    ({ type := some .nodeIf, left := .ref cond, body := some body,
       bodyCount := some b.length } : Node).stmt? = some (.ifStmt c b) := by
  simp only [Node.stmt?, Node.ptrExpr?, Node.block?, hb.stmtsUpTo?]
  rw [hc]

theorem Node.stmt?_while {cond : Node} {body : List Node} {c : Expr} {b : List Stmt}
    (hc : cond.Reads c) (hb : NodesRead body b) :
    ({ type := some .nodeWhile, left := .ref cond, body := some body,
       bodyCount := some b.length } : Node).stmt? = some (.whileStmt c b) := by
  simp only [Node.stmt?, Node.ptrExpr?, Node.block?, hb.stmtsUpTo?]
  rw [hc]

mutual

/-- The statement is read back from its node. -/
theorem Built.stmt? : ∀ {s : Stmt} {node : Node}, Built s node → node.stmt? = some s
  | _, _, .assign h => Node.stmt?_assign rfl h
  | _, _, .print h => Node.stmt?_print h
  | _, _, .ifStmt hcond hbody => Node.stmt?_if hcond hbody.nodesRead
  | _, _, .whileStmt hcond hbody => Node.stmt?_while hcond hbody.nodesRead

theorem BuiltAll.nodesRead : ∀ {ss : List Stmt} {nodes : List Node}, BuiltAll ss nodes →
    NodesRead nodes ss
  | _, _, .nil => .nil
  | _, _, .cons h hrest => .cons h.stmt? hrest.nodesRead

end

/-! ## Blocks that fit -/

mutual

/-- Every block inside the statement has at most 128 statements. -/
def Stmt.BlocksFit : Stmt → Prop
  | .assign _ _ => True
  | .print _ => True
  | .ifStmt _ b => b.length ≤ 128 ∧ Stmt.AllBlocksFit b
  | .whileStmt _ b => b.length ≤ 128 ∧ Stmt.AllBlocksFit b

/-- The same of every statement of a list. -/
def Stmt.AllBlocksFit : List Stmt → Prop
  | [] => True
  | s :: ss => s.BlocksFit ∧ Stmt.AllBlocksFit ss

end

/-! ## Where the parser overflows -/

section Faults

variable {tokens : List Token} {i k : Nat} {node : Node} {e : ParserStop}

/-- A fault in the body of an `if` or a `while`. -/
theorem parseStatement_faults {t : Token} {type : NodeType} (ht : tokens[i]? = some t)
    (htype : blockNode t = some type) (hcond : ComparisonAt tokens (i + 1) node k)
    (hbody : Faults (fun n => parseBody n tokens [] 0 (k + 1)) e) :
    Faults (fun n => parseStatement n tokens i) e := by
  -- the condition is parsed, and then the body loop faults
  have hrest : Faults (fun n => parseComparison n tokens (i + 1) >>= fun r =>
      parseBody n tokens [] 0 (r.2 + 1) >>= fun b =>
        (.done ({ type := some type, left := .ref r.1, body := some b.1,
                  bodyCount := some b.2.1 }, b.2.2 + 1) : Parsed)) e := by
    refine Yields.bind_faults (parseComparison_mono (i + 1)) (fun r => ?_) hcond hbody.bind
    exact (parseBody_mono _ _ _).bind fun _ _ => .refl _
  have hblock : Faults (fun n => parseBlockStatement type n tokens i) e :=
    .succ (fun _ => rfl) hrest
  refine .succ (fun n => ?_) hblock
  rw [parseStatement_succ, tokenAt_eq ht, done_bind]
  cases t with
  | tokIf =>
    obtain rfl : NodeType.nodeIf = type := Option.some.inj htype
    rfl
  | tokWhile =>
    obtain rfl : NodeType.nodeWhile = type := Option.some.inj htype
    rfl
  | _ => cases htype

/-- What the body loop does with a statement that has been parsed. -/
theorem parseBody_next_mono (body : List Node) (ptr : Nat) (r : Node × Nat) :
    FuelMono fun n => if ptr < 128 then parseBody n tokens (body ++ [r.1]) (ptr + 1) r.2
      else .stop (.bodyOverflow ptr) := by
  intro n
  by_cases hptr : ptr < 128
  · simp only [if_pos hptr]
    exact parseBody_mono _ _ _ n
  · simp only [if_neg hptr]
    exact .refl _

variable {t : Token} (ht : tokens[i]? = some t)
include ht

/-- A fault in a statement of the body is a fault of the body. -/
theorem parseBody_faults_statement (hbrace : t ≠ .tokRbrace) (body : List Node) (ptr : Nat)
    (h : Faults (fun n => parseStatement n tokens i) e) :
    Faults (fun n => parseBody n tokens body ptr i) e :=
  .succ (fun n => parseBody_of_ne ht hbrace n body ptr) h.bind

/-- The array is full, or the rest of the body does not fit. -/
theorem parseBody_faults_rest (hbrace : t ≠ .tokRbrace) {body : List Node} {ptr : Nat}
    (hnode : StatementAt tokens i node k)
    (h : Faults (fun n => if ptr < 128 then parseBody n tokens (body ++ [node]) (ptr + 1) k
      else .stop (.bodyOverflow ptr)) e) :
    Faults (fun n => parseBody n tokens body ptr i) e :=
  .succ (fun n => parseBody_of_ne ht hbrace n body ptr)
    (Yields.bind_faults (parseStatement_mono i) (parseBody_next_mono body ptr) hnode h)

/-- A fault in a statement is a fault of the parser. -/
theorem parserLoop_faults_statement (heof : t ≠ .tokEof) (capacity : Nat)
    (statements : List Node) (count : Nat) (h : Faults (fun n => parseStatement n tokens i) e) :
    Faults (fun n => parserLoop n tokens capacity statements count i) e :=
  .succ (fun n => parserLoop_of_ne ht heof n capacity statements count) h.bind

/-- A fault behind the first statement is a fault of the parser. -/
theorem parserLoop_faults_rest (heof : t ≠ .tokEof) {capacity : Nat} {statements : List Node}
    {count : Nat} (hnode : StatementAt tokens i node k)
    (hroom : count < (if count = capacity then capacity * 2 else capacity))
    (h : Faults (fun n => parserLoop n tokens (if count = capacity then capacity * 2 else capacity)
      (statements ++ [node]) (count + 1) k) e) :
    Faults (fun n => parserLoop n tokens capacity statements count i) e := by
  refine .succ (fun n => parserLoop_of_ne ht heof n capacity statements count) ?_
  simp only [if_pos hroom]
  exact Yields.bind_faults (parseStatement_mono i) (fun r => parserLoop_mono _ _ _ _) hnode h

end Faults

/-! ## What the parser makes of a phrase -/

mutual

/-- A phrase is read as its chain. -/
theorem SpellsChain.chains {c : Chain} {ts : List Token} : SpellsChain c ts → Chains ts c
  | .factor h => h.chains
  | .binary op hleft hright => hleft.chains.join hright.chains op

theorem SpellsFactor.chains {e : Expr} {ts : List Token} : SpellsFactor e ts → Chains ts (e, [])
  | .ident x => .ident x
  | .num v => .num v
  | .paren h => h.chains.paren

end

/-- A spelt chain is parsed as a comparison, and the node is read back as the tree of the chain. -/
theorem SpellsChain.comparisonAt {c : Chain} {ts tokens rest : List Token} {i : Nat}
    (h : SpellsChain c ts) (hdrop : tokens.drop i = ts ++ rest) (hrest : EndsExpr rest) :
    ∃ node, ComparisonAt tokens i node (i + ts.length) ∧ node.Reads c.tree := by
  obtain ⟨t, us, rfl, ht⟩ := hrest
  exact h.chains.comparisonAt hdrop ht

/-- The blocks fit and the family returns what it should, or they do not and it writes behind the
128 entries of a body. -/
def Collects {α : Type} (fit : Prop) (f : Nat → Fueled ParserStop α) (good : α → Prop) : Prop :=
  (fit ∧ ∃ a, Yields f a ∧ good a) ∨ (¬ fit ∧ Faults f (.bodyOverflow 128))

theorem Collects.imp {α : Type} {fit : Prop} {f : Nat → Fueled ParserStop α}
    {good good' : α → Prop} (h : Collects fit f good) (himp : ∀ a, good a → good' a) :
    Collects fit f good' := by
  rcases h with ⟨hfit, a, ha, hgood⟩ | hover
  · exact .inl ⟨hfit, a, ha, himp a hgood⟩
  · exact .inr hover

/-- An `if` or a `while`, given what the body loop makes of its block. -/
theorem collects_block {t : Token} {type : NodeType} {c : Chain} {b : List Stmt}
    {tokens ts ss rest : List Token} {i : Nat} (htype : blockNode t = some type)
    (hcond : SpellsChain c ts)
    (hbody : ∀ {i}, tokens.drop i = ss ++ Token.tokRbrace :: rest →
      Collects (0 + b.length ≤ 128 ∧ Stmt.AllBlocksFit b) (fun n => parseBody n tokens [] 0 i)
        (fun r => ∃ nodes, r = ([] ++ nodes, 0 + b.length, i + ss.length) ∧ BuiltAll b nodes))
    (hdrop : tokens.drop i =
      t :: (ts ++ Token.tokLbrace :: (ss ++ [Token.tokRbrace])) ++ rest) :
    Collects (b.length ≤ 128 ∧ Stmt.AllBlocksFit b) (fun n => parseStatement n tokens i)
      (fun r => r.2 = i + (t :: (ts ++ Token.tokLbrace :: (ss ++ [Token.tokRbrace]))).length ∧
        ∃ cond body, cond.Reads c.tree ∧ BuiltAll b body ∧
          r.1 = { type := some type, left := .ref cond, body := some body,
                  bodyCount := some b.length }) := by
  have ht := getElem?_of_drop hdrop
  rw [List.cons_append] at hdrop
  have hdrop₁ : tokens.drop (i + 1) =
      ts ++ (Token.tokLbrace :: (ss ++ (Token.tokRbrace :: rest))) := by
    rw [drop_succ_of_drop hdrop]
    simp only [List.append_assoc, List.cons_append, List.nil_append]
  obtain ⟨cond, hnode, hreads⟩ := hcond.comparisonAt hdrop₁ ⟨_, _, rfl, rfl⟩
  have hdrop₂ := drop_succ_of_drop (drop_of_drop hdrop₁)
  rw [Nat.zero_add] at hbody
  -- the block goes through, or its fault is the fault of the statement
  rcases hbody hdrop₂ with ⟨hfit, _, hyields, body, rfl, hbuilt⟩ | ⟨hfit, hfaults⟩
  · refine .inl ⟨hfit, _, StatementAt.block ht htype hnode hyields, ?_,
      cond, body, hreads, hbuilt, rfl⟩
    simp only [List.length_cons, List.length_append, List.length_nil]
    omega
  · exact .inr ⟨hfit, parseStatement_faults ht htype hnode hfaults⟩

mutual

/-- `parse_statement` on a spelled statement. -/
theorem SpellsStmt.collects {tokens : List Token} : ∀ {s : Stmt} {ts : List Token},
    SpellsStmt s ts → ∀ {rest : List Token} {i : Nat}, tokens.drop i = ts ++ rest →
      EndsExpr rest → Collects s.BlocksFit (fun n => parseStatement n tokens i)
        (fun r => r.2 = i + ts.length ∧ Built s r.1)
  | _, _, .assign x h, rest, i, hdrop, hrest => by
    -- no block of its own: an assignment always fits
    have hdrop₁ := drop_succ_of_drop hdrop
    obtain ⟨node, hnode, hreads⟩ := h.comparisonAt (drop_succ_of_drop hdrop₁) hrest
    refine .inl ⟨trivial, _,
      StatementAt.assign (getElem?_of_drop hdrop) (getElem?_of_drop hdrop₁) hnode,
      ?_, .assign hreads⟩
    simp only [List.length_cons]
    omega
  | _, _, .print h, rest, i, hdrop, hrest => by
    obtain ⟨node, hnode, hreads⟩ := h.comparisonAt (drop_succ_of_drop hdrop) hrest
    refine .inl ⟨trivial, _, StatementAt.print (getElem?_of_drop hdrop) hnode, ?_, .print hreads⟩
    simp only [List.length_cons]
    omega
  | _, _, .ifStmt hcond hbody, rest, i, hdrop, _ => by
    have htype : blockNode .tokIf = some .nodeIf := rfl
    have hblock := collects_block htype hcond (fun h => hbody.collects [] 0 (by omega) h) hdrop
    refine hblock.imp ?_
    rintro ⟨node, k⟩ ⟨hlen, cond, body, hreads, hbuilt, rfl⟩
    exact ⟨hlen, .ifStmt hreads hbuilt⟩
  | _, _, .whileStmt hcond hbody, rest, i, hdrop, _ => by
    have htype : blockNode .tokWhile = some .nodeWhile := rfl
    have hblock := collects_block htype hcond (fun h => hbody.collects [] 0 (by omega) h) hdrop
    refine hblock.imp ?_
    rintro ⟨node, k⟩ ⟨hlen, cond, body, hreads, hbuilt, rfl⟩
    exact ⟨hlen, .whileStmt hreads hbuilt⟩

/-- The body loop on spelled statements, entered with `ptr` statements stored. -/
theorem SpellsStmts.collects {tokens : List Token} : ∀ {ss : List Stmt} {ts : List Token},
    SpellsStmts ss ts → ∀ {rest : List Token} {i : Nat} (body : List Node) (ptr : Nat),
      ptr ≤ 128 → tokens.drop i = ts ++ Token.tokRbrace :: rest →
      Collects (ptr + ss.length ≤ 128 ∧ Stmt.AllBlocksFit ss)
        (fun n => parseBody n tokens body ptr i)
        (fun r => ∃ nodes, r = (body ++ nodes, ptr + ss.length, i + ts.length) ∧
          BuiltAll ss nodes)
  | _, _, .nil, rest, i, body, ptr, hptr, hdrop => by
    refine .inl ⟨⟨hptr, trivial⟩, _, BodyAt.close (getElem?_of_drop hdrop), [], ?_, .nil⟩
    rw [List.append_nil]
    rfl
  | _, _, @SpellsStmts.cons s ss ts us hs hss, rest, i, body, ptr, hptr, hdrop => by
    rw [List.append_assoc] at hdrop
    obtain ⟨t, ts', hhead, hstart⟩ := hs.isStmt.head
    have hends : EndsExpr (us ++ Token.tokRbrace :: rest) := hss.isStmts.endsExpr ⟨_, _, rfl, rfl⟩
    have hi : tokens[i]? = some t := by
      rw [hhead] at hdrop
      exact getElem?_of_drop hdrop
    -- the loop goes on, since a statement does not begin with `}`
    have hbrace : t ≠ .tokRbrace := by
      rintro rfl
      cases hstart
    rcases hs.collects hdrop hends with ⟨hfit, ⟨node, k⟩, hnode, hk, hbuilt⟩ | ⟨hfit, hfaults⟩
    · obtain rfl : k = i + ts.length := hk
      -- the statement is parsed, and now its node is stored
      by_cases hroom : ptr < 128
      · rcases hss.collects (body ++ [node]) (ptr + 1) hroom (drop_of_drop hdrop) with
          ⟨hrestFit, _, hyields, nodes, rfl, hnodes⟩ | ⟨hrestFit, hfaults⟩
        · refine .inl ⟨⟨?_, hfit, hrestFit.2⟩, _, BodyAt.statement hi hbrace hnode hroom hyields,
            node :: nodes, ?_, .cons hbuilt hnodes⟩
          · rw [List.length_cons]
            have := hrestFit.1
            omega
          · simp only [List.append_assoc, List.singleton_append, List.length_cons,
              List.length_append, Prod.mk.injEq, true_and]
            omega
        · refine .inr ⟨fun hall => hrestFit ⟨?_, hall.2.2⟩,
            parseBody_faults_rest hi hbrace hnode (by simpa only [if_pos hroom] using hfaults)⟩
          have := hall.1
          rw [List.length_cons] at this
          omega
      · -- the array is full: the statement that has just been parsed has no place in it
        obtain rfl : ptr = 128 := by omega
        refine .inr ⟨fun hall => ?_, parseBody_faults_rest hi hbrace hnode ⟨0, rfl⟩⟩
        have := hall.1
        rw [List.length_cons] at this
        omega
    · exact .inr ⟨fun hall => hfit hall.2.1, parseBody_faults_statement hi hbrace body ptr hfaults⟩

end

/-- The loop of `parser` on spelled statements. Its array is doubled before it is too small. -/
theorem SpellsStmts.parserLoop_collects {tokens : List Token} : ∀ {ss : List Stmt}
    {ts : List Token}, SpellsStmts ss ts → ∀ {rest : List Token} {i : Nat} (capacity : Nat)
      (statements : List Node) (count : Nat), 0 < capacity → count ≤ capacity →
      tokens.drop i = ts ++ Token.tokEof :: rest →
      Collects (Stmt.AllBlocksFit ss)
        (fun n => parserLoop n tokens capacity statements count i)
        (fun result => ∃ nodes, BuiltAll ss nodes ∧
          result = ⟨statements ++ nodes, count + ss.length, i + ts.length⟩)
  | _, _, .nil, rest, i, capacity, statements, count, _, _, hdrop => by
    refine .inl ⟨trivial, _, ParserLoopAt.eof (getElem?_of_drop hdrop), [], .nil, ?_⟩
    rw [List.append_nil]
    rfl
  | _, _, @SpellsStmts.cons s ss ts us hs hss, rest, i, capacity, statements, count, hpos, hcap,
    hdrop => by
    rw [List.append_assoc] at hdrop
    obtain ⟨t, ts', hhead, hstart⟩ := hs.isStmt.head
    have hends : EndsExpr (us ++ Token.tokEof :: rest) := hss.isStmts.endsExpr ⟨_, _, rfl, rfl⟩
    have hi : tokens[i]? = some t := by
      rw [hhead] at hdrop
      exact getElem?_of_drop hdrop
    have heof : t ≠ .tokEof := by
      rintro rfl
      cases hstart
    -- the array has been doubled if it was full, so that there is a place
    have hroom : count < (if count = capacity then capacity * 2 else capacity) := by
      split <;> omega
    rcases hs.collects hdrop hends with ⟨hfit, ⟨node, k⟩, hnode, hk, hbuilt⟩ | ⟨hfit, hfaults⟩
    · obtain rfl : k = i + ts.length := hk
      rcases hss.parserLoop_collects (if count = capacity then capacity * 2 else capacity)
        (statements ++ [node]) (count + 1) (by omega) hroom (drop_of_drop hdrop) with
        ⟨hrestFit, _, hyields, nodes, hnodes, rfl⟩ | ⟨hrestFit, hfaults⟩
      · refine .inl ⟨⟨hfit, hrestFit⟩, _, ParserLoopAt.statement hi heof hnode hroom hyields,
          node :: nodes, .cons hbuilt hnodes, ?_⟩
        simp only [List.append_assoc, List.singleton_append, List.length_cons,
          List.length_append, ParserResult.mk.injEq, true_and]
        omega
      · exact .inr ⟨fun hall => hrestFit hall.2, parserLoop_faults_rest hi heof hnode hroom hfaults⟩
    · exact .inr ⟨fun hall => hfit hall.1,
        parserLoop_faults_statement hi heof capacity statements count hfaults⟩

/-- `parser` on a spelled program. -/
theorem SpellsProgram.collects {prog : List Stmt} {tokens : List Token}
    (h : SpellsProgram prog tokens) :
    Collects (Stmt.AllBlocksFit prog) (fun n => parser n tokens)
      (fun result => BuiltAll prog result.statements ∧ result.statementCount = prog.length ∧
        result.cursor + 1 = tokens.length) := by
  obtain ⟨ts, hts, rfl⟩ := h
  have hdrop : (ts ++ [Token.tokEof]).drop 0 = ts ++ Token.tokEof :: [] := rfl
  rcases hts.parserLoop_collects 128 [] 0 (by decide) (by decide) hdrop with
    ⟨hfit, _, hyields, nodes, hnodes, rfl⟩ | hover
  · refine .inl ⟨hfit, _, hyields, hnodes, Nat.zero_add _, ?_⟩
    show 0 + ts.length + 1 = (ts ++ [Token.tokEof]).length
    rw [Nat.zero_add, List.length_append]
    rfl
  · exact .inr hover

/-- What `parser` returns on a spelled program. -/
theorem SpellsProgram.built {prog : List Stmt} {tokens : List Token} {result : ParserResult}
    (h : SpellsProgram prog tokens) (hresult : ParserAt tokens result) :
    BuiltAll prog result.statements ∧ result.statementCount = prog.length := by
  rcases h.collects with ⟨_, result', hyields, hbuilt, hcount, _⟩ | ⟨_, n, hn⟩
  · obtain rfl := Yields.unique parser_mono hresult hyields
    exact ⟨hbuilt, hcount⟩
  · exact absurd hn (hresult.not_stop parser_mono)

/-! ## When the blocks hold their statements -/

/-- No write to a statement array is outside its allocation, and the program and every block in
it have as many nodes as statements. -/
def BlocksHold (prog : List Stmt) (tokens : List Token) : Prop :=
  (∀ n i, parser n tokens ≠ .stop (.bodyOverflow i) ∧
    parser n tokens ≠ .stop (.statementsOverflow i)) ∧
  ∃ result, ParserAt tokens result ∧ BuiltAll prog result.statements ∧
    result.statementCount = prog.length

/-- **When the blocks hold their statements.** On a token list that spells a program, every write
is inside its array and every block is stored whole exactly when no block has more than 128
statements. The array of the program itself is never too small: otherwise the parser stops at a
write to the entry 128 of a body. -/
theorem blocksHold_iff {prog : List Stmt} {tokens : List Token} (h : SpellsProgram prog tokens) :
    (BlocksHold prog tokens ↔ Stmt.AllBlocksFit prog) ∧
    (¬ Stmt.AllBlocksFit prog → Faults (fun n => parser n tokens) (.bodyOverflow 128)) := by
  rcases h.collects with ⟨hfit, result, hyields, hbuilt, hcount, _⟩ | ⟨hfit, hfaults⟩
  · -- a run that returns never stops
    have hnever : ∀ n e, parser n tokens ≠ .stop e := fun n e => hyields.not_stop parser_mono
    exact ⟨⟨fun _ => hfit, fun _ => ⟨fun n i => ⟨hnever n _, hnever n _⟩, result, hyields, hbuilt,
      hcount⟩⟩, fun hnot => absurd hfit hnot⟩
  · obtain ⟨n, hn⟩ := hfaults
    exact ⟨⟨fun hhold => absurd hn (hhold.1 n 128).1, fun hall => absurd hall hfit⟩,
      fun _ => ⟨n, hn⟩⟩

/-- `if x { print x ... print x }` with `n` statements in its block. -/
def ifPrints (n : Nat) : List Stmt :=
  [.ifStmt (.ident .x) (List.replicate n (.print (.ident .x)))]

/-- Its tokens. -/
def ifPrintsTokens (n : Nat) : List Token :=
  Token.tokIf :: ([.tokIdent .x] ++ Token.tokLbrace ::
    ((List.replicate n [Token.tokPrint, .tokIdent .x]).flatten ++ [.tokRbrace])) ++ [] ++ [.tokEof]

theorem spells_ifPrints (n : Nat) : SpellsProgram (ifPrints n) (ifPrintsTokens n) := by
  have hprint : SpellsStmt (.print (.ident .x)) [.tokPrint, .tokIdent .x] :=
    .print (.factor (.ident .x))
  exact ⟨_, .cons (.ifStmt (.factor (.ident .x)) (.replicate hprint n)) .nil, rfl⟩

/-- The block of the example fits its array up to 128 statements. -/
theorem le_of_ifPrints_fit {n : Nat} (h : Stmt.AllBlocksFit (ifPrints n)) : n ≤ 128 := by
  have hle := h.1.1
  rwa [List.length_replicate] at hle

/-- A block with 128 statements. -/
theorem blocksHold_full : (BlocksHold (ifPrints 128) (ifPrintsTokens 128) ↔
    Stmt.AllBlocksFit (ifPrints 128)) ∧ (¬ Stmt.AllBlocksFit (ifPrints 128) →
      Faults (fun n => parser n (ifPrintsTokens 128)) (.bodyOverflow 128)) :=
  blocksHold_iff (spells_ifPrints 128)

/-- A block with one statement more: the parser writes behind the 128 places of the body. -/
theorem not_blocksHold_129 :
    Faults (fun n => parser n (ifPrintsTokens 129)) (.bodyOverflow 128) ∧
      ¬ ∀ prog tokens, SpellsProgram prog tokens → BlocksHold prog tokens := by
  have hspells := spells_ifPrints 129
  have hfaults : Faults (fun n => parser n (ifPrintsTokens 129)) (.bodyOverflow 128) := by
    rcases hspells.collects with ⟨hfit, -⟩ | ⟨-, hfaults⟩
    · have hle := le_of_ifPrints_fit hfit
      omega
    · exact hfaults
  refine ⟨hfaults, fun hall => ?_⟩
  obtain ⟨n, hn⟩ := hfaults
  exact ((hall _ _ hspells).1 n 128).1 hn

end Bytecode

end SystemsProjects

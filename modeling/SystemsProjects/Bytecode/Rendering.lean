import SystemsProjects.Bytecode.ParserChain

/-!
# Token segments that spell chains

`Chains ts c` says that the tokens `ts`, wherever they stand in a token list, are
read as the chain `c` of factors, and that a chain that goes on behind them is
read as the longer chain. It composes the way a printer does: an atom, a
parenthesised chain, and two chains joined by an operator (`Chains.num`,
`Chains.ident`, `Chains.paren`, `Chains.join`).

A segment is described by what it does to any list that contains it, so that no lemma has to say
where it stands. The rules are those of a printer and not those of the parser, so they serve any
printer that puts its text together in these ways.
-/

namespace SystemsProjects

namespace Bytecode

/-- A chain of expressions: its first factor and the operators and factors after
it. -/
abbrev Chain := Expr × List (BinOp × Expr)

/-- The tree the parser builds from a chain. -/
def Chain.tree (c : Chain) : Expr := assemble .bin id id c.1 c.2

/-- `node` stands for `e`. -/
def Node.Reads (node : Node) (e : Expr) : Prop := node.expr? = some e

/-- The rest of a chain of nodes stands for the rest of a chain of expressions. -/
def TailReads : List (BinOp × Node) → List (BinOp × Expr) → Prop :=
  List.Forall₂ fun p q => p.1 = q.1 ∧ p.2.Reads q.2

/-- An operator node over nodes that stand for `a` and `b` stands for `a op b`. -/
theorem opNode_reads (op : BinOp) {l r : Node} {a b : Expr} (hl : l.Reads a)
    (hr : r.Reads b) : (opNode op l r).Reads (.bin op a b) := by
  unfold Node.Reads at hl hr ⊢
  cases op <;> simp [opNode, binaryNode, Node.expr?, Node.ptrExpr?, BinOp.nodeType,
    NodeType.binOp?, hl, hr]

/-- The node built from a chain of nodes stands for the tree of the chain. -/
theorem assemble_reads {f : Node} {tail : List (BinOp × Node)} {c : Chain}
    (hf : f.Reads c.1) (htail : TailReads tail c.2) :
    (assemble opNode id id f tail).Reads c.tree :=
  assemble_rel (R := Node.Reads) opNode_reads htail (fun h => h) (fun h => h) hf

/-! ## Positions in a token list -/

/-- The first token of the rest is the one at the cursor. -/
theorem getElem?_of_drop {tokens : List Token} {i : Nat} {t : Token}
    {rest : List Token} (h : tokens.drop i = t :: rest) : tokens[i]? = some t := by
  have h0 : (tokens.drop i)[0]? = some t := by rw [h]; rfl
  rwa [List.getElem?_drop] at h0

theorem drop_of_drop {tokens ts rest : List Token} {i : Nat}
    (h : tokens.drop i = ts ++ rest) : tokens.drop (i + ts.length) = rest := by
  rw [← List.drop_drop, h, List.drop_left]

theorem drop_succ_of_drop {tokens rest : List Token} {i : Nat} {t : Token}
    (h : tokens.drop i = t :: rest) : tokens.drop (i + 1) = rest := by
  rw [← List.drop_drop, h]
  rfl

/-! ## Chains -/

/-- The tokens `ts` are read as the chain `c`, in front of any continuation of
the chain. -/
def Chains (ts : List Token) (c : Chain) : Prop :=
  ∀ (tokens : List Token) (i j : Nat) (rest : List Token) (more : List (BinOp × Node)),
    tokens.drop i = ts ++ rest → TailAt tokens (i + ts.length) more j →
    ∃ f tail, ChainAt tokens i f (tail ++ more) j ∧ f.Reads c.1 ∧ TailReads tail c.2

theorem Chains.num (v : CInt) : Chains [.tokNum v] (.num v, []) := by
  intro tokens i j rest more hdrop htail
  exact ⟨_, [], ⟨_, .num (getElem?_of_drop hdrop), htail⟩, rfl, .nil⟩

theorem Chains.ident (x : Name) : Chains [.tokIdent x] (.ident x, []) := by
  intro tokens i j rest more hdrop htail
  exact ⟨_, [], ⟨_, .ident (getElem?_of_drop hdrop), htail⟩, rfl, .nil⟩

/-- A chain in front of a token that is no operator is a whole comparison. -/
theorem Chains.comparisonAt {ts : List Token} {c : Chain} (h : Chains ts c)
    {tokens rest : List Token} {i : Nat} {t : Token}
    (hdrop : tokens.drop i = ts ++ t :: rest) (ht : t.binOp? = none) :
    ∃ node, ComparisonAt tokens i node (i + ts.length) ∧ node.Reads c.tree := by
  have hend : tokens[i + ts.length]? = some t := getElem?_of_drop (drop_of_drop hdrop)
  obtain ⟨f, tail, hchain, hf, htail⟩ := h tokens i _ _ [] hdrop (.nil hend ht)
  rw [List.append_nil] at hchain
  exact ⟨_, hchain.comparisonAt, assemble_reads hf htail⟩

/-- A parenthesised chain is one factor. -/
theorem Chains.paren {ts : List Token} {c : Chain} (h : Chains ts c) :
    Chains (Token.tokLparen :: ts ++ [Token.tokRparen]) (c.tree, []) := by
  intro tokens i j rest more hdrop htail
  rw [List.cons_append, List.cons_append, List.append_assoc] at hdrop
  obtain ⟨node, hnode, hreads⟩ := h.comparisonAt (drop_succ_of_drop hdrop) rfl
  refine ⟨node, [], ⟨_, .paren (getElem?_of_drop hdrop) hnode, ?_⟩, hreads, .nil⟩
  have hlen : i + (Token.tokLparen :: ts ++ [Token.tokRparen]).length
      = i + 1 + ts.length + 1 := by
    simp only [List.cons_append, List.length_cons, List.length_append, List.length_nil]
    omega
  rwa [hlen] at htail

/-- Two chains joined by an operator are one chain. -/
theorem Chains.join {ts us : List Token} {c d : Chain} (hc : Chains ts c)
    (hd : Chains us d) (op : BinOp) :
    Chains (ts ++ op.token :: us) (c.1, c.2 ++ (op, d.1) :: d.2) := by
  intro tokens i j rest more hdrop htail
  rw [List.append_assoc, List.cons_append] at hdrop
  have hop := drop_of_drop hdrop
  have hlen : i + (ts ++ op.token :: us).length = i + ts.length + 1 + us.length := by
    rw [List.length_append, List.length_cons]
    omega
  rw [hlen] at htail
  obtain ⟨g, tail', ⟨k, hg, hrest⟩, hgr, htail'⟩ :=
    hd tokens _ j rest more (drop_succ_of_drop hop) htail
  obtain ⟨f, tail, hchain, hfr, htail⟩ :=
    hc tokens i j _ _ hdrop (.cons (getElem?_of_drop hop) hg hrest)
  refine ⟨f, tail ++ (op, g) :: tail', ?_, hfr, ?_⟩
  · rw [List.append_assoc, List.cons_append]
    exact hchain
  · exact List.rel_append htail (.cons ⟨rfl, hgr⟩ htail')

end Bytecode

end SystemsProjects

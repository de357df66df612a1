import SystemsProjects.Lib.Checked
import SystemsProjects.Lib.Arrays
import SystemsProjects.Bytecode.Codegen
import SystemsProjects.Bytecode.Semantics

/-!
# What the code generator emits

When code generation goes through, the bytes it has written are a function of the tree,
of the position it starts at, and of the variable table: `exprCode`, `stmtCode`,
`stmtsCode`. The back-patched jump targets are part of these bytes.

- `GenState.put`: a run of bytes appended at once.
- `walk_expr`, `walk_stmt`, `walk_stmts`: `walk` appends the code of the tree and
  declares the variables the tree assigns.
- `generateByte_eq`: the same of the whole program.

The back-patching of `walk` disappears here: in `whileCode` the target of the jump is written in
its place from the start, because the length of the block is known. The proof that `walk` has
the same effect (`walk_while`, `walk_if`) is the place where the placeholder is followed from
its emission to the write that fills it in.
-/

namespace SystemsProjects

namespace Bytecode

/-! ## The variable table -/

/-- The operand of `OP_STORE` for a name. -/
def VarTable.slotFor (t : VarTable) (x : Name) : Nat := (t.lookup x).getD t.count

/-- The table after `OP_STORE` was emitted for a name. -/
def VarTable.declare (t : VarTable) (x : Name) : VarTable :=
  match t.lookup x with
  | some _ => t
  | none => ⟨Function.update t.names t.count x, t.count + 1⟩

/-- The table after `OP_STORE` was emitted for the names of a list, in order. -/
def VarTable.declareAll (t : VarTable) (xs : List Name) : VarTable := xs.foldl .declare t

/-! ## The code of a tree -/

/-- The code of an expression. A name that the table does not hold leaves `OP_LOAD`
without its operand. -/
def exprCode (t : VarTable) : Expr → List Byte
  | .num v => [OpCode.opPush.toByte, v.setWidth 8]
  | .ident x => OpCode.opLoad.toByte :: ((t.lookup x).map (BitVec.ofNat 8)).toList
  | .bin op l r => exprCode t l ++ (exprCode t r ++ [op.opCode.toByte])

/-- A condition and a block behind it, placed at `start`. -/
def ifCode (start : Nat) (cond body : List Byte) : List Byte :=
  cond ++ OpCode.opJmpIfFalse.toByte ::
    BitVec.ofNat 8 (start + cond.length + 2 + body.length) :: body

/-- The same with a jump back to the condition at the end of the block. -/
def whileCode (start : Nat) (cond body : List Byte) : List Byte :=
  cond ++ OpCode.opJmpIfFalse.toByte ::
    BitVec.ofNat 8 (start + cond.length + 2 + body.length + 2) ::
    (body ++ [OpCode.opJmp.toByte, BitVec.ofNat 8 start])

mutual

/-- The code of a statement placed at `start`, in front of which the table is `t`. -/
def stmtCode (t : VarTable) (start : Nat) : Stmt → List Byte
  | .assign x e => exprCode t e ++ [OpCode.opStore.toByte, BitVec.ofNat 8 (t.slotFor x)]
  | .print e => exprCode t e ++ [OpCode.opPrint.toByte]
  | .ifStmt c b =>
    ifCode start (exprCode t c) (stmtsCode t (start + (exprCode t c).length + 2) b)
  | .whileStmt c b =>
    whileCode start (exprCode t c) (stmtsCode t (start + (exprCode t c).length + 2) b)

/-- The code of statements one after the other. -/
def stmtsCode (t : VarTable) (start : Nat) : List Stmt → List Byte
  | [] => []
  | s :: ss => stmtCode t start s ++
      stmtsCode (t.declareAll s.assigned) (start + (stmtCode t start s).length) ss

end

/-! ## Appending bytes -/

/-- The bytes `bs` appended to the code, whatever the size of the array. -/
def GenState.put (g : GenState) (bs : List Byte) : GenState where
  byteArray := overwrite g.byteArray g.byteArrayCount bs
  byteArrayCount := g.byteArrayCount + bs.length
  vars := g.vars

@[simp] theorem GenState.put_byteArrayCount (g : GenState) (bs : List Byte) :
    (g.put bs).byteArrayCount = g.byteArrayCount + bs.length := rfl

@[simp] theorem GenState.put_vars (g : GenState) (bs : List Byte) : (g.put bs).vars = g.vars :=
  rfl

theorem GenState.put_nil (g : GenState) : g.put [] = g := by
  rw [GenState.put, ← overwrite_nil]
  rfl

/-- What is emitted in two parts is emitted as one. -/
theorem GenState.put_put (g : GenState) (bs cs : List Byte) :
    (g.put bs).put cs = g.put (bs ++ cs) := by
  simp only [GenState.put, overwrite_append, List.length_append, Nat.add_assoc]

/-- A byte that is written is inside the array. -/
theorem GenState.write_eq_ok {g g' : GenState} {i : Nat} {b : Byte}
    (h : g.write i b = .ok g') :
    i < byteArraySize ∧ g' = { g with byteArray := Function.update g.byteArray i b } := by
  unfold GenState.write at h
  by_cases hi : i < byteArraySize
  · rw [if_pos hi] at h
    exact ⟨hi, (Except.ok.inj h).symm⟩
  · rw [if_neg hi] at h
    cases h

/-- A byte that is emitted is appended. -/
theorem GenState.emit_eq_ok {g g' : GenState} {b : Byte} (h : g.emit b = .ok g') :
    g' = g.put [b] := by
  obtain ⟨g₁, hwrite, hcount⟩ := bind_eq_ok.mp h
  obtain ⟨_, rfl⟩ := GenState.write_eq_ok hwrite
  obtain rfl := Except.ok.inj hcount
  simp only [GenState.put, update_overwrite_singleton]
  rfl

/-! ## Nodes that stand for a tree -/

/-- A pointer that stands for an expression is not null. -/
theorem Node.ptrExpr?_eq_some {p : Ptr Node} {e : Expr} (h : Node.ptrExpr? p = some e) :
    ∃ n, p = .ref n ∧ n.expr? = some e := by
  cases p with
  | ref n => exact ⟨n, rfl, h⟩
  | null => cases h
  | unset => cases h

/-- The fields of a node that stands for an expression. -/
inductive Node.IsExpr : Node → Expr → Prop where
  | num {n : Node} {v : CInt} (htype : n.type = some .nodeNum) (hvalue : n.value = some v) :
    IsExpr n (.num v)
  | ident {n : Node} {x : Name} (htype : n.type = some .nodeIdent)
    (hname : n.name = some x) : IsExpr n (.ident x)
  | bin {n l r : Node} {op : BinOp} {e f : Expr} (htype : n.type = some op.nodeType)
    (hleft : n.left = .ref l) (hright : n.right = .ref r) (hl : l.expr? = some e)
    (hr : r.expr? = some f) : IsExpr n (.bin op e f)

/-- A node with two operands, when its operator is known. -/
theorem Node.isExpr_bin {n : Node} {e : Expr} (op : BinOp) (htype : n.type = some op.nodeType)
    (h : (match Node.ptrExpr? n.left, Node.ptrExpr? n.right with
      | some l, some r => some (Expr.bin op l r)
      | _, _ => none) = some e) : n.IsExpr e := by
  cases hl : Node.ptrExpr? n.left with
  | none => simp [hl] at h
  | some e₁ =>
    cases hr : Node.ptrExpr? n.right with
    | none => simp [hl, hr] at h
    | some e₂ =>
      simp only [hl, hr, Option.some.injEq] at h
      subst h
      obtain ⟨l, hleft, hl⟩ := Node.ptrExpr?_eq_some hl
      obtain ⟨r, hright, hr⟩ := Node.ptrExpr?_eq_some hr
      exact .bin htype hleft hright hl hr

/-- What a node must be that is read as an expression, by cases on the expression. -/
theorem Node.isExpr_of_expr? {n : Node} {e : Expr} (h : n.expr? = some e) : n.IsExpr e := by
  obtain ⟨type, name, value, left, right, body, bodyCount⟩ := n
  cases type with
  | none => simp [Node.expr?] at h
  | some type =>
    cases type with
    | nodeNum =>
      obtain ⟨v, hv, rfl⟩ := Option.map_eq_some_iff.mp h
      exact .num rfl hv
    | nodeIdent =>
      obtain ⟨x, hx, rfl⟩ := Option.map_eq_some_iff.mp h
      exact .ident rfl hx
    | nodeAdd => exact Node.isExpr_bin .add rfl h
    | nodeSub => exact Node.isExpr_bin .sub rfl h
    | nodeMul => exact Node.isExpr_bin .mul rfl h
    | nodeDiv => exact Node.isExpr_bin .div rfl h
    | nodeGt => exact Node.isExpr_bin .gt rfl h
    | nodeLt => exact Node.isExpr_bin .lt rfl h
    | nodeEqeq => exact Node.isExpr_bin .eqeq rfl h
    | _ => simp [Node.expr?, NodeType.binOp?] at h

/-- The node type of the statements with a block. -/
def loopNode (loop : Bool) : NodeType := if loop then .nodeWhile else .nodeIf

/-- The statement with a block. -/
def Stmt.withBlock (loop : Bool) (c : Expr) (b : List Stmt) : Stmt :=
  if loop then .whileStmt c b else .ifStmt c b

/-- The fields of a node that stands for a statement. -/
inductive Node.IsStmt : Node → Stmt → Prop where
  | assign {n r : Node} {x : Name} {e : Expr} (htype : n.type = some .nodeAssign)
    (hname : Node.ptrName? n.left = some x) (hright : n.right = .ref r)
    (hr : r.expr? = some e) : IsStmt n (.assign x e)
  | print {n l : Node} {e : Expr} (htype : n.type = some .nodePrint)
    (hleft : n.left = .ref l) (hl : l.expr? = some e) : IsStmt n (.print e)
  | block {n l : Node} {ns : List Node} {count : Nat} {c : Expr} {b : List Stmt} (loop : Bool)
    (htype : n.type = some (loopNode loop)) (hleft : n.left = .ref l)
    (hl : l.expr? = some c) (hbody : n.body = some ns) (hcount : n.bodyCount = some count)
    (hb : Node.stmtsUpTo? ns count = some b) : IsStmt n (Stmt.withBlock loop c b)

/-- A block that can be read has both its fields set. -/
theorem Node.block?_eq_some {body : Option (List Node)} {bodyCount : Option Nat}
    {b : List Stmt} (h : Node.block? body bodyCount = some b) :
    ∃ ns count, body = some ns ∧ bodyCount = some count ∧ Node.stmtsUpTo? ns count = some b := by
  cases body with
  | none => cases h
  | some ns =>
    cases bodyCount with
    | none => cases h
    | some count => exact ⟨ns, count, rfl, rfl, h⟩

/-- A node with a condition and a block, when it is known which of the two it is. -/
theorem Node.isStmt_block {n : Node} {s : Stmt} (loop : Bool)
    (htype : n.type = some (loopNode loop))
    (h : (match Node.ptrExpr? n.left, Node.block? n.body n.bodyCount with
      | some c, some b => some (Stmt.withBlock loop c b)
      | _, _ => none) = some s) : n.IsStmt s := by
  cases hl : Node.ptrExpr? n.left with
  | none => simp [hl] at h
  | some c =>
    cases hb : Node.block? n.body n.bodyCount with
    | none => simp [hl, hb] at h
    | some b =>
      simp only [hl, hb, Option.some.injEq] at h
      subst h
      obtain ⟨l, hleft, hl⟩ := Node.ptrExpr?_eq_some hl
      obtain ⟨ns, count, hbody, hcount, hb⟩ := Node.block?_eq_some hb
      exact .block loop htype hleft hl hbody hcount hb

/-- What a node must be that is read as a statement, by cases on the statement. -/
theorem Node.isStmt_of_stmt? {n : Node} {s : Stmt} (h : n.stmt? = some s) : n.IsStmt s := by
  obtain ⟨type, name, value, left, right, body, bodyCount⟩ := n
  cases type with
  | none => simp [Node.stmt?] at h
  | some type =>
    cases type with
    | nodeAssign =>
      -- both the name and the right side must be readable
      simp only [Node.stmt?] at h
      cases hx : Node.ptrName? left with
      | none => simp [hx] at h
      | some x =>
        cases hr : Node.ptrExpr? right with
        | none => simp [hx, hr] at h
        | some e =>
          simp only [hx, hr, Option.some.injEq] at h
          subst h
          obtain ⟨r, hright, hr⟩ := Node.ptrExpr?_eq_some hr
          exact .assign rfl hx hright hr
    | nodePrint =>
      simp only [Node.stmt?] at h
      obtain ⟨e, he, rfl⟩ := Option.map_eq_some_iff.mp h
      obtain ⟨l, hleft, hl⟩ := Node.ptrExpr?_eq_some he
      exact .print rfl hleft hl
    | nodeIf => exact Node.isStmt_block false rfl h
    | nodeWhile => exact Node.isStmt_block true rfl h
    | _ => simp [Node.stmt?] at h

/-- The node of an assignment. -/
theorem Node.stmt?_eq_assign {n : Node} {x : Name} {e : Expr}
    (h : n.stmt? = some (.assign x e)) :
    ∃ r, n.type = some .nodeAssign ∧ Node.ptrName? n.left = some x ∧ n.right = .ref r ∧
      r.expr? = some e := by
  generalize hs : Stmt.assign x e = s at h
  cases Node.isStmt_of_stmt? h with
  | assign htype hname hright hr =>
    cases hs
    exact ⟨_, htype, hname, hright, hr⟩
  | print _ _ _ => cases hs
  | block loop _ _ _ _ _ _ =>
    cases loop
    · cases hs
    · cases hs

/-- The node of a `print`. -/
theorem Node.stmt?_eq_print {n : Node} {e : Expr} (h : n.stmt? = some (.print e)) :
    ∃ l, n.type = some .nodePrint ∧ n.left = .ref l ∧ l.expr? = some e := by
  generalize hs : Stmt.print e = s at h
  cases Node.isStmt_of_stmt? h with
  | assign _ _ _ _ => cases hs
  | print htype hleft hl =>
    cases hs
    exact ⟨_, htype, hleft, hl⟩
  | block loop _ _ _ _ _ _ =>
    cases loop
    · cases hs
    · cases hs

/-- The statement of a block determines the kind of the block, the condition and the body. -/
theorem Stmt.withBlock_inj {loop loop' : Bool} {c c' : Expr} {b b' : List Stmt}
    (h : Stmt.withBlock loop c b = Stmt.withBlock loop' c' b') :
    loop = loop' ∧ c = c' ∧ b = b' := by
  cases loop
  · cases loop'
    · cases h
      exact ⟨rfl, rfl, rfl⟩
    · cases h
  · cases loop'
    · cases h
    · cases h
      exact ⟨rfl, rfl, rfl⟩

/-- The node of a statement with a block. -/
theorem Node.stmt?_eq_block {n : Node} (loop : Bool) {c : Expr} {b : List Stmt}
    (h : n.stmt? = some (.withBlock loop c b)) :
    ∃ l ns count, n.type = some (loopNode loop) ∧ n.left = .ref l ∧ l.expr? = some c ∧
      n.body = some ns ∧ n.bodyCount = some count ∧ Node.stmtsUpTo? ns count = some b := by
  generalize hs : Stmt.withBlock loop c b = s at h
  cases Node.isStmt_of_stmt? h with
  | assign _ _ _ _ =>
    cases loop
    · cases hs
    · cases hs
  | print _ _ _ =>
    cases loop
    · cases hs
    · cases hs
  | block loop' htype hleft hl hbody hcount hb =>
    obtain ⟨rfl, rfl, rfl⟩ := Stmt.withBlock_inj hs
    exact ⟨_, _, _, htype, hleft, hl, hbody, hcount, hb⟩

/-! ## `walk` -/

/-- A name that can be read is read without a fault. -/
theorem readName_of_ptrName? {p : Ptr Node} {x : Name} (h : Node.ptrName? p = some x) :
    readName p = .ok x := by
  cases p with
  | ref n =>
    have hname : n.name = some x := h
    rw [readName, hname]
    rfl
  | null => cases h
  | unset => cases h

/-- `walk` on a binary operator. -/
theorem walk_bin {n l r : Node} {op : BinOp} (htype : n.type = some op.nodeType)
    (hleft : n.left = .ref l) (hright : n.right = .ref r) (g : GenState) :
    walk n g = walk l g >>= fun g => walk r g >>= fun g => g.emit op.opCode.toByte := by
  obtain ⟨type, name, value, left, right, body, bodyCount⟩ := n
  dsimp only at htype hleft hright
  subst htype hleft hright
  cases op <;> rfl

/-- `walk` on a name. -/
theorem walk_ident {n : Node} {x : Name} (htype : n.type = some .nodeIdent)
    (hname : n.name = some x) (g : GenState) :
    walk n g = g.emit OpCode.opLoad.toByte >>= fun g =>
      match g.vars.lookup x with
      | some i => g.emit (BitVec.ofNat 8 i)
      | none => .ok g := by
  obtain ⟨type, name, value, left, right, body, bodyCount⟩ := n
  dsimp only at htype hname
  subst htype hname
  rfl

/-- On a node that stands for an expression, `walk` appends the expression's code. -/
theorem walk_expr {e : Expr} : ∀ {n : Node} {g g' : GenState}, n.expr? = some e →
    walk n g = .ok g' → g' = g.put (exprCode g.vars e) := by
  induction e with
  | num v =>
    intro n g g' hn h
    -- the node has its value, and two bytes are emitted
    obtain ⟨type, name, value, left, right, body, bodyCount⟩ := n
    cases Node.isExpr_of_expr? hn with
    | num htype hvalue =>
      dsimp only at htype hvalue
      subst htype hvalue
      obtain ⟨g₁, h₁, h⟩ := bind_eq_ok.mp h
      obtain ⟨v', hv, h⟩ := bind_eq_ok.mp h
      cases hv
      rw [GenState.emit_eq_ok h, GenState.emit_eq_ok h₁, GenState.put_put]
      rfl
  | ident x =>
    intro n g g' hn h
    cases Node.isExpr_of_expr? hn with
    | ident htype hname =>
      rw [walk_ident htype hname] at h
      obtain ⟨g₁, h₁, h⟩ := bind_eq_ok.mp h
      obtain rfl := GenState.emit_eq_ok h₁
      rw [exprCode]
      rw [GenState.put_vars] at h
      -- a name without a slot leaves `OP_LOAD` alone
      cases hslot : g.vars.lookup x with
      | none =>
        rw [hslot] at h
        exact (Except.ok.inj h).symm
      | some i =>
        rw [hslot] at h
        rw [GenState.emit_eq_ok h, GenState.put_put]
        rfl
  | bin op e f ihe ihf =>
    intro n g g' hn h
    cases Node.isExpr_of_expr? hn with
    | bin htype hleft hright hl hr =>
      rw [walk_bin htype hleft hright] at h
      obtain ⟨g₁, h₁, h⟩ := bind_eq_ok.mp h
      obtain ⟨g₂, h₂, h⟩ := bind_eq_ok.mp h
      -- left operand, right operand, instruction
      obtain rfl := ihe hl h₁
      obtain rfl := ihf hr h₂
      rw [GenState.emit_eq_ok h, GenState.put_put, GenState.put_put, GenState.put_vars,
        exprCode]

/-- The bytes `bs` appended, and the names of `xs` declared. -/
def GenState.putDeclare (g : GenState) (bs : List Byte) (xs : List Name) : GenState :=
  { g.put bs with vars := g.vars.declareAll xs }

theorem GenState.put_putDeclare (g : GenState) (bs cs : List Byte) (xs : List Name) :
    (g.put bs).putDeclare cs xs = g.putDeclare (bs ++ cs) xs := by
  rw [GenState.putDeclare, GenState.put_put]
  rfl

theorem GenState.putDeclare_put (g : GenState) (bs cs : List Byte) (xs : List Name) :
    (g.putDeclare bs xs).put cs = g.putDeclare (bs ++ cs) xs := by
  simp only [GenState.putDeclare, GenState.put, overwrite_append, List.length_append,
    Nat.add_assoc]

/-- Statements one after the other: their code is appended and their names are declared in order. -/
theorem GenState.putDeclare_putDeclare (g : GenState) (bs cs : List Byte) (xs ys : List Name) :
    (g.putDeclare bs xs).putDeclare cs ys = g.putDeclare (bs ++ cs) (xs ++ ys) := by
  simp only [GenState.putDeclare, GenState.put, overwrite_append, List.length_append,
    Nat.add_assoc, VarTable.declareAll, List.foldl_append]

/-- The operand of `OP_STORE` is appended and its variable declared. -/
theorem emitStoreSlot_eq_ok {g g' : GenState} {x : Name} (h : emitStoreSlot g x = .ok g') :
    g' = g.putDeclare [BitVec.ofNat 8 (g.vars.slotFor x)] [x] := by
  unfold emitStoreSlot at h
  unfold GenState.putDeclare VarTable.declareAll VarTable.slotFor
  rw [List.foldl_cons, List.foldl_nil, VarTable.declare]
  cases hslot : g.vars.lookup x with
  | some i =>
    rw [hslot] at h
    exact GenState.emit_eq_ok h
  | none =>
    rw [hslot] at h
    dsimp only at h
    by_cases hcount : g.vars.count < 256
    · rw [if_pos hcount] at h
      obtain ⟨g₁, h₁, h⟩ := bind_eq_ok.mp h
      obtain rfl := GenState.emit_eq_ok h₁
      exact (Except.ok.inj h).symm
    · rw [if_neg hcount] at h
      cases h

/-- A placeholder that is filled in later. -/
theorem GenState.write_putDeclare {g g' : GenState} {bs cs : List Byte} {xs : List Name}
    {x y : Byte} {i : Nat} (hi : i = g.byteArrayCount + bs.length)
    (h : (g.putDeclare (bs ++ x :: cs) xs).write i y = .ok g') :
    g' = g.putDeclare (bs ++ y :: cs) xs := by
  obtain ⟨_, rfl⟩ := GenState.write_eq_ok h
  subst hi
  simp only [GenState.putDeclare, GenState.put, update_overwrite, List.length_append,
    List.length_cons]

theorem walkUpTo_zero (ns : List Node) (g : GenState) : walkUpTo ns 0 g = .ok g := by
  cases ns <;> rfl

theorem Node.stmtsUpTo?_zero (ns : List Node) : Node.stmtsUpTo? ns 0 = some [] := by
  cases ns <;> rfl

/-- The array of a statement and what follows it. -/
theorem Node.stmtsUpTo?_eq_cons {ns : List Node} {len : Nat} {s : Stmt} {ss : List Stmt}
    (h : Node.stmtsUpTo? ns len = some (s :: ss)) :
    ∃ n ns' len', ns = n :: ns' ∧ len = len' + 1 ∧ n.stmt? = some s ∧
      Node.stmtsUpTo? ns' len' = some ss := by
  cases len with
  | zero =>
    rw [Node.stmtsUpTo?_zero] at h
    cases h
  | succ len =>
    cases ns with
    | nil => cases h
    | cons n ns =>
      rw [Node.stmtsUpTo?] at h
      split at h
      · next hs hss =>
        cases h
        exact ⟨n, ns, len, rfl, rfl, hs, hss⟩
      · cases h

theorem Node.stmtsUpTo?_eq_nil {ns : List Node} {len : Nat}
    (h : Node.stmtsUpTo? ns len = some []) : len = 0 := by
  cases len with
  | zero => rfl
  | succ len =>
    cases ns with
    | nil => cases h
    | cons n ns =>
      rw [Node.stmtsUpTo?] at h
      split at h
      · cases h
      · cases h

section Blocks

variable {n l : Node} {ns : List Node} {count : Nat} {c : Expr} {b : List Stmt}
  {g g₂ g₃ g₄ g' : GenState}

/-- The part `if` and `while` share: the condition, `OP_JMP_IF_FALSE` with its
placeholder, then the block. -/
theorem walk_block {g₁ : GenState}
    (hl : l.expr? = some c) (h₁ : walk l g = .ok g₁)
    (h₂ : g₁.emit OpCode.opJmpIfFalse.toByte = .ok g₂) (h₃ : g₂.emit 0x00 = .ok g₃)
    (h₄ : walkUpTo ns count g₃ = .ok g₄)
    (hb : ∀ {g g'}, walkUpTo ns count g = .ok g' →
      g' = g.putDeclare (stmtsCode g.vars g.byteArrayCount b) (Stmt.assignedList b)) :
    g₂.byteArrayCount
      = g.byteArrayCount + (exprCode g.vars c ++ [OpCode.opJmpIfFalse.toByte]).length ∧
    g₄ = g.putDeclare (exprCode g.vars c ++ [OpCode.opJmpIfFalse.toByte] ++ 0 ::
      stmtsCode g.vars (g.byteArrayCount + (exprCode g.vars c).length + 2) b)
      (Stmt.assignedList b) := by
  obtain rfl := walk_expr hl h₁
  obtain rfl := GenState.emit_eq_ok h₂
  obtain rfl := GenState.emit_eq_ok h₃
  obtain rfl := hb h₄
  -- the block starts behind the placeholder
  have hstart : g.byteArrayCount + (exprCode g.vars c).length + 1 + 1
      = g.byteArrayCount + (exprCode g.vars c).length + 2 := rfl
  constructor
  · rw [GenState.put_put]
    rfl
  · simp only [GenState.put_put, GenState.put_vars, GenState.put_byteArrayCount,
      GenState.put_putDeclare, List.append_assoc, List.singleton_append, List.length_append,
      List.length_cons, List.length_nil, ← Nat.add_assoc, hstart]
    rfl

/-- The address behind the block of an `if`. -/
theorem walk_if (htype : n.type = some .nodeIf) (hleft : n.left = .ref l)
    (hl : l.expr? = some c) (hbody : n.body = some ns) (hcount : n.bodyCount = some count)
    (hb : ∀ {g g'}, walkUpTo ns count g = .ok g' →
      g' = g.putDeclare (stmtsCode g.vars g.byteArrayCount b) (Stmt.assignedList b))
    (h : walk n g = .ok g') :
    g' = g.putDeclare (stmtCode g.vars g.byteArrayCount (.ifStmt c b))
      (Stmt.assignedList b) := by
  obtain ⟨type, name, value, left, right, body, bodyCount⟩ := n
  dsimp only at htype hleft hbody hcount
  subst htype hleft hbody hcount
  -- condition, jump, placeholder, block
  obtain ⟨g₁, h₁, h⟩ := bind_eq_ok.mp h
  obtain ⟨g₂, h₂, h⟩ := bind_eq_ok.mp h
  obtain ⟨g₃, h₃, h⟩ := bind_eq_ok.mp h
  obtain ⟨g₄, h₄, h⟩ := bind_eq_ok.mp h
  obtain ⟨hplace, rfl⟩ := walk_block hl h₁ h₂ h₃ h₄ hb
  -- the address behind the block goes over the placeholder
  obtain rfl := GenState.write_putDeclare hplace h
  rw [stmtCode, ifCode, List.append_assoc, List.singleton_append]
  congr 4
  simp only [GenState.putDeclare, GenState.put_byteArrayCount, List.length_append,
    List.length_cons, List.length_nil]
  congr 1
  omega

/-- A loop: the code of the condition, a jump behind the block, the code of the block and a jump
back, with the first jump patched at the end. -/
theorem walk_while (htype : n.type = some .nodeWhile) (hleft : n.left = .ref l)
    (hl : l.expr? = some c) (hbody : n.body = some ns) (hcount : n.bodyCount = some count)
    (hb : ∀ {g g'}, walkUpTo ns count g = .ok g' →
      g' = g.putDeclare (stmtsCode g.vars g.byteArrayCount b) (Stmt.assignedList b))
    (h : walk n g = .ok g') :
    g' = g.putDeclare (stmtCode g.vars g.byteArrayCount (.whileStmt c b))
      (Stmt.assignedList b) := by
  obtain ⟨type, name, value, left, right, body, bodyCount⟩ := n
  dsimp only at htype hleft hbody hcount
  subst htype hleft hbody hcount
  -- condition, jump and placeholder, block, and the jump back in two bytes
  obtain ⟨g₁, h₁, h⟩ := bind_eq_ok.mp h
  obtain ⟨g₂, h₂, h⟩ := bind_eq_ok.mp h
  obtain ⟨g₃, h₃, h⟩ := bind_eq_ok.mp h
  obtain ⟨g₄, h₄, h⟩ := bind_eq_ok.mp h
  obtain ⟨g₅, h₅, h⟩ := bind_eq_ok.mp h
  obtain ⟨g₆, h₆, h⟩ := bind_eq_ok.mp h
  obtain ⟨hplace, rfl⟩ := walk_block hl h₁ h₂ h₃ h₄ hb
  obtain rfl := GenState.emit_eq_ok h₅
  obtain rfl := GenState.emit_eq_ok h₆
  rw [GenState.putDeclare_put, GenState.putDeclare_put, List.append_assoc,
    List.append_assoc, List.cons_append] at h
  -- the placeholder lies in what was appended, and is filled in there
  obtain rfl := GenState.write_putDeclare hplace h
  rw [stmtCode, whileCode, List.append_assoc, List.singleton_append]
  congr 4
  simp only [GenState.putDeclare, GenState.put_byteArrayCount, List.length_append,
    List.length_cons, List.length_nil]
  congr 1
  omega

end Blocks

mutual

/-- On a node that stands for a statement, `walk` appends the statement's code and
declares the variables it assigns. -/
theorem walk_stmt : ∀ (s : Stmt) {n : Node} {g g' : GenState}, n.stmt? = some s →
    walk n g = .ok g' → g' = g.putDeclare (stmtCode g.vars g.byteArrayCount s) s.assigned
  | .assign x e, n, g, g', hn, h => by
    obtain ⟨r, htype, hname, hright, hr⟩ := Node.stmt?_eq_assign hn
    obtain ⟨type, name, value, left, right, body, bodyCount⟩ := n
    dsimp only at htype hname hright
    subst htype hright
    -- the right side, `OP_STORE` and the slot, which may be a new one
    obtain ⟨g₁, h₁, h⟩ := bind_eq_ok.mp h
    obtain ⟨g₂, h₂, h⟩ := bind_eq_ok.mp h
    rw [readName_of_ptrName? hname] at h
    obtain rfl := walk_expr hr h₁
    obtain rfl := GenState.emit_eq_ok h₂
    rw [emitStoreSlot_eq_ok h, GenState.put_put, GenState.put_putDeclare,
      List.append_assoc]
    rfl
  | .print e, n, g, g', hn, h => by
    obtain ⟨l, htype, hleft, hl⟩ := Node.stmt?_eq_print hn
    obtain ⟨type, name, value, left, right, body, bodyCount⟩ := n
    dsimp only at htype hleft
    subst htype hleft
    obtain ⟨g₁, h₁, h⟩ := bind_eq_ok.mp h
    obtain rfl := walk_expr hl h₁
    rw [GenState.emit_eq_ok h, GenState.put_put]
    rfl
  | .ifStmt c b, n, g, g', hn, h => by
    obtain ⟨l, ns, count, htype, hleft, hl, hbody, hcount, hb⟩ := Node.stmt?_eq_block false hn
    exact walk_if htype hleft hl hbody hcount (walk_stmts b hb) h
  | .whileStmt c b, n, g, g', hn, h => by
    obtain ⟨l, ns, count, htype, hleft, hl, hbody, hcount, hb⟩ := Node.stmt?_eq_block true hn
    exact walk_while htype hleft hl hbody hcount (walk_stmts b hb) h

/-- The same of an array of nodes. -/
theorem walk_stmts : ∀ (ss : List Stmt) {ns : List Node} {len : Nat},
    Node.stmtsUpTo? ns len = some ss → ∀ {g g' : GenState}, walkUpTo ns len g = .ok g' →
      g' = g.putDeclare (stmtsCode g.vars g.byteArrayCount ss) (Stmt.assignedList ss)
  | [], ns, len, hns, g, g', h => by
    obtain rfl := Node.stmtsUpTo?_eq_nil hns
    rw [walkUpTo_zero] at h
    obtain rfl := Except.ok.inj h
    exact (GenState.put_nil g).symm
  | s :: ss, ns, len, hns, g, g', h => by
    obtain ⟨n, ns, len, rfl, rfl, hs, hss⟩ := Node.stmtsUpTo?_eq_cons hns
    obtain ⟨g₁, h₁, h⟩ := bind_eq_ok.mp h
    obtain rfl := walk_stmt s hs h₁
    rw [walk_stmts ss hss h, GenState.putDeclare_putDeclare]
    rfl

end

/-- A program for which code generation goes through: its code, then `OP_HALT`. -/
theorem generateByte_eq {mem : Nat → Byte} {vars : VarTable} {statements : List Node}
    {len : Nat} {prog : List Stmt} {g : GenState} (hprog : program? statements len = some prog)
    (h : generateByte mem vars statements len = .ok g) :
    g.byteArrayCount = (stmtsCode vars 0 prog).length ∧
    g.byteArray = overwrite mem 0 (stmtsCode vars 0 prog ++ [OpCode.opHalt.toByte]) ∧
    g.vars = vars.declareAll (Stmt.assignedList prog) := by
  obtain ⟨g₁, h₁, h⟩ := bind_eq_ok.mp h
  obtain rfl := walk_stmts prog hprog h₁
  obtain ⟨_, rfl⟩ := GenState.write_eq_ok h
  refine ⟨Nat.zero_add _, ?_, rfl⟩
  rw [← overwrite_append, Nat.zero_add, ← update_overwrite_singleton]
  simp only [GenState.putDeclare, GenState.put, Nat.zero_add]

end Bytecode

end SystemsProjects

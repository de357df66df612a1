import Mathlib.Logic.Basic

/-!
# Tokens, nodes and source trees (`compiler.c`)

The data that passes between the lexer, the parser and the code generator.

- `Token`: a `Token` struct, as the union of its tag with the one field its tag
  makes meaningful (`value` for `TOK_NUM`, `name` for `TOK_IDENT`).
- `Node`: a `malloc`ed `struct Node`, field by field. A field that has not been
  assigned since the allocation is `none`, or `Ptr.unset` for a pointer.
- `Expr`, `Stmt`: the trees the nodes stand for. `Node.expr?` and `Node.stmt?`
  read a tree back through the fields that are meaningful for each node type,
  and fail on a node in which one of them was never assigned.

The fields of `Node` are those of the struct, each with a value for "never assigned", because
`parse_factor` and `parse_statement` leave some of them as `malloc` returned them. The readers
below are the only place where this matters: what they return is a proper tree, and all later
modules argue about trees.
-/

namespace SystemsProjects

namespace Bytecode

/-- A C `int`. -/
abbrev CInt := BitVec 32

/-- A C `uint8_t`. -/
abbrev Byte := BitVec 8

/-- A NUL-terminated string held in a `char[32]`. -/
structure Name where
  chars : List Char
  short : chars.length < 32
  noNul : Char.ofNat 0 ∉ chars
  deriving DecidableEq

/-- The string of a zeroed `char[32]`. -/
def Name.empty : Name := ⟨[], by decide, by decide⟩

/-- A token: the `TokenType` tag with its payload. -/
inductive Token where
  | tokNum (value : CInt)
  | tokIdent (name : Name)
  | tokPlus | tokMinus | tokStar | tokSlash
  | tokEq | tokEqeq | tokGt | tokLt
  | tokPrint | tokWhile | tokIf
  | tokLbrace | tokRbrace | tokLparen | tokRparen
  | tokEof
  deriving DecidableEq

/-- `NodeType`. -/
inductive NodeType where
  | nodeNum | nodeAdd | nodeSub | nodeMul | nodeDiv
  | nodeGt | nodeLt | nodeEq | nodeEqeq | nodeAssign | nodePrint
  | nodeWhile | nodeIf | nodeIdent
  deriving DecidableEq, Repr

/-- A pointer field of an allocated struct: never assigned, `NULL`, or the
object it points to. -/
inductive Ptr (α : Type) where
  | unset
  | null
  | ref (a : α)

/-- `struct Node`. The default field values are those of a block fresh from
`malloc`: nothing has been assigned. `body` lists the elements stored in the
array so far. -/
structure Node where
  type : Option NodeType := none
  name : Option Name := none
  value : Option CInt := none
  left : Ptr Node := .unset
  right : Ptr Node := .unset
  body : Option (List Node) := none
  bodyCount : Option Nat := none

/-! ## Source trees -/

/-- The binary operators. -/
inductive BinOp where
  | add | sub | mul | div | eqeq | gt | lt
  deriving DecidableEq, Repr

/-- The node type the parser gives an operator. -/
def BinOp.nodeType : BinOp → NodeType
  | .add => .nodeAdd
  | .sub => .nodeSub
  | .mul => .nodeMul
  | .div => .nodeDiv
  | .eqeq => .nodeEqeq
  | .gt => .nodeGt
  | .lt => .nodeLt

/-- The token that spells an operator. -/
def BinOp.token : BinOp → Token
  | .add => .tokPlus
  | .sub => .tokMinus
  | .mul => .tokStar
  | .div => .tokSlash
  | .eqeq => .tokEqeq
  | .gt => .tokGt
  | .lt => .tokLt

/-- The operator a node type stands for, if it is a binary one. -/
def NodeType.binOp? : NodeType → Option BinOp
  | .nodeAdd => some .add
  | .nodeSub => some .sub
  | .nodeMul => some .mul
  | .nodeDiv => some .div
  | .nodeEqeq => some .eqeq
  | .nodeGt => some .gt
  | .nodeLt => some .lt
  | _ => none

/-- The node of an operator is read back as that operator. -/
@[simp] theorem BinOp.binOp?_nodeType (op : BinOp) :
    op.nodeType.binOp? = some op := by
  cases op <;> rfl

/-- An expression. -/
inductive Expr where
  | num (value : CInt)
  | ident (name : Name)
  | bin (op : BinOp) (left right : Expr)
  deriving DecidableEq

/-- A statement. -/
inductive Stmt where
  | assign (name : Name) (rhs : Expr)
  | print (e : Expr)
  | ifStmt (cond : Expr) (body : List Stmt)
  | whileStmt (cond : Expr) (body : List Stmt)

mutual

def Stmt.decEq : (s t : Stmt) → Decidable (s = t)
  | .assign x e, .assign y f => decidable_of_iff (x = y ∧ e = f) (by simp)
  | .print e, .print f => decidable_of_iff (e = f) (by simp)
  | .ifStmt c b, .ifStmt d b' =>
    have := Stmt.decEqList b b'
    decidable_of_iff (c = d ∧ b = b') (by simp)
  | .whileStmt c b, .whileStmt d b' =>
    have := Stmt.decEqList b b'
    decidable_of_iff (c = d ∧ b = b') (by simp)
  | .assign _ _, .print _ | .assign _ _, .ifStmt _ _ | .assign _ _, .whileStmt _ _
  | .print _, .assign _ _ | .print _, .ifStmt _ _ | .print _, .whileStmt _ _
  | .ifStmt _ _, .assign _ _ | .ifStmt _ _, .print _ | .ifStmt _ _, .whileStmt _ _
  | .whileStmt _ _, .assign _ _ | .whileStmt _ _, .print _
  | .whileStmt _ _, .ifStmt _ _ => .isFalse (by simp)

def Stmt.decEqList : (ss ts : List Stmt) → Decidable (ss = ts)
  | [], [] => .isTrue rfl
  | s :: ss, t :: ts =>
    have := Stmt.decEq s t
    have := Stmt.decEqList ss ts
    decidable_of_iff (s = t ∧ ss = ts) (by simp)
  | [], _ :: _ | _ :: _, [] => .isFalse (by simp)

end

instance : DecidableEq Stmt := Stmt.decEq

/-! ## Reading a tree back from a node -/

mutual

/-- The expression a node stands for, read through the fields that are
meaningful for its type. -/
def Node.expr? : Node → Option Expr
  | ⟨type, name, value, left, right, _, _⟩ =>
    match type with
    | none => none
    | some .nodeNum => value.map .num
    | some .nodeIdent => name.map .ident
    | some t =>
      match t.binOp? with
      | some op =>
        match Node.ptrExpr? left, Node.ptrExpr? right with
        | some l, some r => some (.bin op l r)
        | _, _ => none
      | none => none

/-- The expression behind a pointer field. -/
def Node.ptrExpr? : Ptr Node → Option Expr
  | .ref n => n.expr?
  | .null => none
  | .unset => none

end

/-- The name behind the `left` field of an assignment: `statement->left->name`. -/
def Node.ptrName? : Ptr Node → Option Name
  | .ref n => n.name
  | .null => none
  | .unset => none

mutual

/-- The statement a node stands for. -/
def Node.stmt? : Node → Option Stmt
  | ⟨type, _, _, left, right, body, bodyCount⟩ =>
    match type with
    | some .nodeAssign =>
      match Node.ptrName? left, Node.ptrExpr? right with
      | some x, some e => some (.assign x e)
      | _, _ => none
    | some .nodePrint => (Node.ptrExpr? left).map .print
    | some .nodeIf =>
      match Node.ptrExpr? left, Node.block? body bodyCount with
      | some c, some b => some (.ifStmt c b)
      | _, _ => none
    | some .nodeWhile =>
      match Node.ptrExpr? left, Node.block? body bodyCount with
      | some c, some b => some (.whileStmt c b)
      | _, _ => none
    | _ => none

/-- The statements of a block: as many array elements as `body_count` says. -/
def Node.block? : Option (List Node) → Option Nat → Option (List Stmt)
  | some ns, some count => Node.stmtsUpTo? ns count
  | _, _ => none

/-- The first `count` statements of an array. -/
def Node.stmtsUpTo? : List Node → Nat → Option (List Stmt)
  | _, 0 => some []
  | [], _ + 1 => none
  | n :: ns, count + 1 =>
    match n.stmt?, Node.stmtsUpTo? ns count with
    | some s, some ss => some (s :: ss)
    | _, _ => none

end

/-- The program an array of `len` statement pointers stands for. -/
def program? (statements : List Node) (len : Nat) : Option (List Stmt) :=
  Node.stmtsUpTo? statements len

/-! ## The program of `main` -/

/-- The only variable of the program that `main` compiles. -/
def Name.x : Name := ⟨['x'], by decide, by decide⟩

/-- The program that `main` compiles:
`x = 3; while x > 0 { print x; x = x - 1 }`. -/
def mainProgram : List Stmt :=
  [.assign .x (.num 3),
   .whileStmt (.bin .gt (.ident .x) (.num 0))
     [.print (.ident .x), .assign .x (.bin .sub (.ident .x) (.num 1))]]

end Bytecode

end SystemsProjects

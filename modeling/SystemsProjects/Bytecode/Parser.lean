import SystemsProjects.Lib.Fuel
import SystemsProjects.Bytecode.Ast

/-!
# The recursive-descent parser (`compiler.c`)

`parse_statement`, `parse_comparison`, `parse_expression`, `parse_term`,
`parse_factor` and `parser`, over a fixed token array and one shared cursor.
Each function returns its node with the new cursor.

The array accesses are checked: reading the token array past its end, or writing
a block's array past its 128 entries, is a fault of the model (`ParserStop`), as
is the path on which `parse_statement` reaches its end without a `return`.

The cursor is a global of the source and an argument and a result here. The functions call one
another in a circle, with `parse_factor` back at `parse_comparison` behind a parenthesis, so the
recursion is bounded by a fuel argument; `ParserRules` shows that the amount does not matter and
states the answers without it.
-/

namespace SystemsProjects

namespace Bytecode

/-- The ways a parsing function can fail to return. -/
inductive ParserStop where
  /-- `fprintf(stderr, message); exit(1)` -/
  | exit (message : String)
  /-- a read of `tokens[i]` outside the array -/
  | readPastEnd (i : Nat)
  /-- the end of `parse_statement` is reached and its value is used -/
  | noReturnValue
  /-- a write to `body[i]` outside the 128 allocated entries -/
  | bodyOverflow (i : Nat)
  /-- a write to `statements[i]` outside the allocated entries -/
  | statementsOverflow (i : Nat)
  deriving DecidableEq

/-- A parsing step: the node built and the cursor after it. -/
abbrev Parsed := Fueled ParserStop (Node × Nat)

/-- `tokens[i]` -/
def tokenAt (tokens : List Token) (i : Nat) : Fueled ParserStop Token :=
  match tokens[i]? with
  | some t => .done t
  | none => .stop (.readPastEnd i)

/-- The node type `parse_comparison` builds for a token, if it loops on it. -/
def comparisonNode : Token → Option NodeType
  | .tokEqeq => some .nodeEqeq
  | .tokGt => some .nodeGt
  | .tokLt => some .nodeLt
  | _ => none

/-- The node type `parse_expression` builds for a token, if it loops on it. -/
def expressionNode : Token → Option NodeType
  | .tokPlus => some .nodeAdd
  | .tokMinus => some .nodeSub
  | _ => none

/-- The node type `parse_term` builds for a token, if it loops on it. -/
def termNode : Token → Option NodeType
  | .tokSlash => some .nodeDiv
  | .tokStar => some .nodeMul
  | _ => none

/-- `newNodeComp`: the node for `left op right`. -/
def binaryNode (type : NodeType) (left right : Node) : Node :=
  { type := some type, left := .ref left, right := .ref right }

/-- The loop the three binary levels share: while the current token is one of
the level's operators, consume it, parse the right operand and make the result
the new `left`. -/
def binaryLoop (nodeOf : Token → Option NodeType) (operand : Nat → Parsed)
    (tokens : List Token) : Nat → Node → Nat → Parsed
  | 0, _, _ => .out
  | n + 1, left, i => do
    match nodeOf (← tokenAt tokens i) with
    | none => return (left, i)
    | some type =>
      let (right, i) ← operand (i + 1)
      binaryLoop nodeOf operand tokens n (binaryNode type left right) i

mutual

/-- `parse_comparison`: handles `==`, `<`, `>`. -/
def parseComparison : Nat → List Token → Nat → Parsed
  | 0, _, _ => .out
  | n + 1, tokens, i => do
    let (left, i) ← parseExpression n tokens i
    binaryLoop comparisonNode (parseExpression n tokens) tokens n left i
  termination_by structural n => n

/-- `parse_expression`: handles `+`, `-`. -/
def parseExpression : Nat → List Token → Nat → Parsed
  | 0, _, _ => .out
  | n + 1, tokens, i => do
    let (left, i) ← parseTerm n tokens i
    binaryLoop expressionNode (parseTerm n tokens) tokens n left i
  termination_by structural n => n

/-- `parse_term`: handles `*`, `/`. Its right operand is read by
`parse_expression`. -/
def parseTerm : Nat → List Token → Nat → Parsed
  | 0, _, _ => .out
  | n + 1, tokens, i => do
    let (left, i) ← parseFactor n tokens i
    binaryLoop termNode (parseExpression n tokens) tokens n left i
  termination_by structural n => n

/-- `parse_factor`: numbers, identifiers and parentheses. The token in the place
of `)` is not looked at, and on any other token the fresh leaf is returned as it
came from `malloc`. -/
def parseFactor : Nat → List Token → Nat → Parsed
  | 0, _, _ => .out
  | n + 1, tokens, i => do
    match ← tokenAt tokens i with
    | .tokIdent x =>
      return ({ type := some .nodeIdent, name := some x, left := .null }, i + 1)
    | .tokNum v =>
      return ({ type := some .nodeNum, value := some v, left := .null,
                right := .null }, i + 1)
    | .tokLparen =>
      let (node, i) ← parseComparison n tokens (i + 1)
      return (node, i + 1)
    | _ => return ({}, i)
  termination_by structural n => n

end

mutual

/-- `parse_statement`. -/
def parseStatement : Nat → List Token → Nat → Parsed
  | 0, _, _ => .out
  | n + 1, tokens, i => do
    match ← tokenAt tokens i with
    | .tokIdent x =>
      match ← tokenAt tokens (i + 1) with
      | .tokEq =>
        let leftNode : Node :=
          { type := some .nodeIdent, name := some x, left := .null, right := .null }
        let (right, i) ← parseComparison n tokens (i + 2)
        return ({ type := some .nodeAssign, left := .ref leftNode, right := .ref right }, i)
      | _ => .stop .noReturnValue
    | .tokPrint =>
      let (left, i) ← parseComparison n tokens (i + 1)
      return ({ type := some .nodePrint, left := .ref left, right := .null }, i)
    | .tokIf => parseBlockStatement .nodeIf n tokens i
    | .tokWhile => parseBlockStatement .nodeWhile n tokens i
    | _ => .stop (.exit "AAAAAAAAAAA")
  termination_by structural n => n

/-- The part `if` and `while` share: the condition, one token in the place of
`{`, the body, one token for `}`. -/
def parseBlockStatement (type : NodeType) : Nat → List Token → Nat → Parsed
  | 0, _, _ => .out
  | n + 1, tokens, i => do
    let (cond, i) ← parseComparison n tokens (i + 1)
    let (body, bodyPtr, i) ← parseBody n tokens [] 0 (i + 1)
    return ({ type := some type, left := .ref cond, body := some body,
              bodyCount := some bodyPtr }, i + 1)
  termination_by structural n => n

/-- The body loop: statements up to the next `}`, stored in an array of 128
pointers. -/
def parseBody : Nat → List Token → List Node → Nat → Nat →
    Fueled ParserStop (List Node × Nat × Nat)
  | 0, _, _, _, _ => .out
  | n + 1, tokens, body, bodyPtr, i => do
    match ← tokenAt tokens i with
    | .tokRbrace => return (body, bodyPtr, i)
    | _ =>
      let (node, i) ← parseStatement n tokens i
      if bodyPtr < 128 then
        parseBody n tokens (body ++ [node]) (bodyPtr + 1) i
      else
        .stop (.bodyOverflow bodyPtr)
  termination_by structural n => n

end

/-- What `parser` leaves behind: the statement array, `*statement_count` and its
cursor. -/
structure ParserResult where
  statements : List Node
  statementCount : Nat
  cursor : Nat

/-- The top-level loop of `parser`; the array is doubled when it is full. -/
def parserLoop : Nat → List Token → Nat → List Node → Nat → Nat →
    Fueled ParserStop ParserResult
  | 0, _, _, _, _, _ => .out
  | n + 1, tokens, capacity, statements, count, i => do
    match ← tokenAt tokens i with
    | .tokEof => return ⟨statements, count, i⟩
    | _ =>
      let capacity := if count = capacity then capacity * 2 else capacity
      let (node, i) ← parseStatement n tokens i
      if count < capacity then
        parserLoop n tokens capacity (statements ++ [node]) (count + 1) i
      else
        .stop (.statementsOverflow count)

/-- `parser`, with `n` levels of recursion and loop rounds to spend. -/
def parser (n : Nat) (tokens : List Token) : Fueled ParserStop ParserResult :=
  parserLoop n tokens 128 [] 0 0

end Bytecode

end SystemsProjects

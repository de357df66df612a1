import SystemsProjects.Bytecode.Vm

/-!
# The code generator (`compiler.c`)

`walk` and `generate_byte`, over the node structs as the parser leaves them.

- `VarTable`: the globals `var_names` and `var_count`.
- `GenState`: the code array with the number of bytes emitted, and the table.
- `GenStop`: the faults of the model. A write outside the 4096 bytes of the code array
  or the 256 entries of `var_names`, and a read of a field that nobody has assigned.

`walk` is recursive over the node structs, and its back-patching is kept: it emits a
placeholder, walks the block, and writes the address behind it over the placeholder. The tables
and counts are those of the source; a loop over the first entries of an array becomes a
recursion over them.
-/

namespace SystemsProjects

namespace Bytecode

/-- The globals `var_names` and `var_count`. -/
structure VarTable where
  names : Nat → Name
  count : Nat

/-- The table at program start: static storage is zeroed. -/
def VarTable.empty : VarTable := ⟨fun _ => Name.empty, 0⟩

/-- The loop over `var_names`: the first entry that equals the name. -/
def VarTable.lookup (t : VarTable) (name : Name) : Option Nat :=
  (List.range 256).find? fun i => t.names i = name

/-- The code array with its count, and the variable table. -/
structure GenState where
  byteArray : Nat → Byte
  byteArrayCount : Nat
  vars : VarTable

/-- The ways code generation can go wrong. -/
inductive GenStop where
  /-- a write to `byte_array[i]` outside the 4096 allocated bytes -/
  | byteArrayOverflow (i : Nat)
  /-- a write to `var_names[i]` outside the 256 entries -/
  | varNamesOverflow (i : Nat)
  /-- a read of a field, or of an array element, that was never assigned -/
  | unsetField
  deriving DecidableEq

/-- The bytes `generate_byte` allocates. -/
def byteArraySize : Nat := 4096

/-- `byte_array[i] = b` -/
def GenState.write (g : GenState) (i : Nat) (b : Byte) : Except GenStop GenState :=
  if i < byteArraySize then .ok { g with byteArray := Function.update g.byteArray i b }
  else .error (.byteArrayOverflow i)

/-- `byte_array[(*byte_array_count)++] = b` -/
def GenState.emit (g : GenState) (b : Byte) : Except GenStop GenState := do
  let g ← g.write g.byteArrayCount b
  return { g with byteArrayCount := g.byteArrayCount + 1 }

/-- The instruction for a binary operator. -/
def BinOp.opCode : BinOp → OpCode
  | .add => .opAdd
  | .sub => .opSub
  | .mul => .opMul
  | .div => .opDiv
  | .eqeq => .opEq
  | .gt => .opGt
  | .lt => .opLt

/-- The value of a scalar field. -/
def readField {α : Type} : Option α → Except GenStop α
  | some a => .ok a
  | none => .error .unsetField

/-- `statement->left->name` -/
def readName : Ptr Node → Except GenStop Name
  | .ref n => readField n.name
  | .null => .error .unsetField
  | .unset => .error .unsetField

/-- The operand of `OP_STORE`: the variable's slot, or the next free one, which then
becomes the variable's. -/
def emitStoreSlot (g : GenState) (name : Name) : Except GenStop GenState :=
  match g.vars.lookup name with
  | some i => g.emit (BitVec.ofNat 8 i)
  | none =>
    if g.vars.count < 256 then do
      let g := { g with vars.names := Function.update g.vars.names g.vars.count name }
      let g ← g.emit (BitVec.ofNat 8 g.vars.count)
      return { g with vars.count := g.vars.count + 1 }
    else .error (.varNamesOverflow g.vars.count)

mutual

/-- `walk`, on a node. The seven binary operators differ in their instruction only. A
name that `OP_LOAD` does not find leaves the instruction without its operand. -/
def walk : Node → GenState → Except GenStop GenState
  | ⟨type, name, value, left, right, body, bodyCount⟩, g =>
    match type with
    | none => .error .unsetField
    | some .nodeNum => do
      let g ← g.emit OpCode.opPush.toByte
      let value ← readField value
      g.emit (value.setWidth 8)
    | some .nodeIdent => do
      let g ← g.emit OpCode.opLoad.toByte
      let name ← readField name
      match g.vars.lookup name with
      | some i => g.emit (BitVec.ofNat 8 i)
      | none => return g
    | some .nodeAssign => do
      let g ← walkPtr right g
      let g ← g.emit OpCode.opStore.toByte
      let name ← readName left
      emitStoreSlot g name
    | some .nodePrint => do
      let g ← walkPtr left g
      g.emit OpCode.opPrint.toByte
    | some .nodeIf => do
      let g ← walkPtr left g
      let g ← g.emit OpCode.opJmpIfFalse.toByte
      let placeholderIndex := g.byteArrayCount
      let g ← g.emit 0x00
      let g ← walkBody body bodyCount g
      g.write placeholderIndex (BitVec.ofNat 8 g.byteArrayCount)
    | some .nodeWhile => do
      let loopback := g.byteArrayCount
      let g ← walkPtr left g
      let g ← g.emit OpCode.opJmpIfFalse.toByte
      let placeholderIndex := g.byteArrayCount
      let g ← g.emit 0x00
      let g ← walkBody body bodyCount g
      let g ← g.emit OpCode.opJmp.toByte
      let g ← g.emit (BitVec.ofNat 8 loopback)
      g.write placeholderIndex (BitVec.ofNat 8 g.byteArrayCount)
    | some type =>
      match type.binOp? with
      | some op => do
        let g ← walkPtr left g
        let g ← walkPtr right g
        g.emit op.opCode.toByte
      | none => return g

/-- `walk`, on a pointer: nothing is done for `NULL`. -/
def walkPtr : Ptr Node → GenState → Except GenStop GenState
  | .ref n, g => walk n g
  | .null, g => .ok g
  | .unset, _ => .error .unsetField

/-- The loop over `statement->body`. -/
def walkBody : Option (List Node) → Option Nat → GenState → Except GenStop GenState
  | some body, some bodyCount, g => walkUpTo body bodyCount g
  | some _, none, _ => .error .unsetField
  | none, some 0, g => .ok g
  | none, some (_ + 1), _ => .error .unsetField
  | none, none, _ => .error .unsetField

/-- `walk` on the first `len` elements of an array of nodes. -/
def walkUpTo : List Node → Nat → GenState → Except GenStop GenState
  | _, 0, g => .ok g
  | [], _ + 1, _ => .error .unsetField
  | n :: ns, len + 1, g => do
    let g ← walk n g
    walkUpTo ns len g

end

/-- `generate_byte`, with the contents of the allocated array before it is written and
the variable table it starts from. -/
def generateByte (mem : Nat → Byte) (vars : VarTable) (statements : List Node) (len : Nat) :
    Except GenStop GenState := do
  let g ← walkUpTo statements len ⟨mem, 0, vars⟩
  g.write g.byteArrayCount OpCode.opHalt.toByte

end Bytecode

end SystemsProjects

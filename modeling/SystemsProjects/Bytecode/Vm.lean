import Mathlib.Logic.Function.Basic
import SystemsProjects.Lib.Machine
import SystemsProjects.Bytecode.Ast

/-!
# The virtual machine (`vm.c`)

`vm_push`, `vm_pop`, `vm_push_cs`, `vm_pop_cs` and the loop of `vm_run`, one
instruction a step.

- `VM`: the struct, with the numbers printed so far. The arrays are functions from
  their index, and every access checks the index against the array's size.
- `VmStop`: the messages on which the program exits, and the faults of the model: an
  index outside an array, and the division whose quotient is no `int`.
- `vmMachine`: `vm_run` as a machine, running while `running` is set.

The indices are those of C: `sp` and `csp` are `int`s and may be anything, `ip` is a `size_t`.
An instruction that goes wrong half-way has done what comes before, as it has in the source. The
numbers printed so far stand in for the output.
-/

namespace SystemsProjects

namespace Bytecode

/-- `OpCode`. -/
inductive OpCode where
  | opPush | opPop | opAdd | opSub | opMul | opDiv | opPrint
  | opEq | opLt | opGt | opJmp | opJmpIfFalse | opLoad | opStore
  | opCall | opRet | opHalt
  deriving DecidableEq, Repr

/-- The byte that encodes an instruction. -/
def OpCode.toByte : OpCode → Byte
  | .opPush => 0x01
  | .opPop => 0x02
  | .opAdd => 0x03
  | .opSub => 0x04
  | .opMul => 0x05
  | .opDiv => 0x06
  | .opPrint => 0x07
  | .opEq => 0x08
  | .opLt => 0x09
  | .opGt => 0x0A
  | .opJmp => 0x0B
  | .opJmpIfFalse => 0x0C
  | .opLoad => 0x0D
  | .opStore => 0x0E
  | .opCall => 0x0F
  | .opRet => 0x1F
  | .opHalt => 0xFF

/-- Every instruction. -/
def OpCode.all : List OpCode :=
  [.opPush, .opPop, .opAdd, .opSub, .opMul, .opDiv, .opPrint, .opEq, .opLt, .opGt,
   .opJmp, .opJmpIfFalse, .opLoad, .opStore, .opCall, .opRet, .opHalt]

/-- The instruction a byte encodes, as the `switch` of `vm_run` finds it. -/
def OpCode.ofByte? (b : Byte) : Option OpCode :=
  OpCode.all.find? fun op => op.toByte = b

/-- The byte of an opcode is decoded as that opcode. -/
@[simp] theorem OpCode.ofByte?_toByte (op : OpCode) : OpCode.ofByte? op.toByte = some op := by
  cases op <;> decide

/-- `VM`, and the numbers `OP_PRINT` has written. `codeSize` is the length of the array
behind `code`. -/
structure VM where
  code : Nat → Byte
  codeSize : Nat
  ip : Nat
  stack : Nat → CInt
  sp : Int
  globals : Nat → CInt
  cstack : Nat → CInt
  csp : Int
  running : Bool
  printed : List CInt

/-- The ways `vm_run` can stop other than by `OP_HALT`. -/
inductive VmStop where
  /-- `CANNOT PUSH --- STACK OVERFLOW` -/
  | pushOverflow
  /-- `CANNOT POP --- STACK OVERFLOW` -/
  | popUnderflow
  /-- `CANNOT CPUSH --- STACK OVERFLOW` -/
  | cpushOverflow
  /-- `CANNOT CPOP --- STACK OVERFLOW` -/
  | cpopUnderflow
  /-- `division by zero` -/
  | divisionByZero
  /-- `INT_MIN / -1`, whose quotient is no `int` -/
  | divisionOverflow
  /-- `unknown opcode: 0x…` -/
  | unknownOpcode (op : Byte)
  /-- a read of `code` outside the array -/
  | codeOutOfBounds (i : Nat)
  /-- an access to `stack` or `cstack` outside the array -/
  | stackOutOfBounds (i : Int)
  deriving DecidableEq

/-- `vm_init`. -/
def vmInit (code : Nat → Byte) (codeSize : Nat) : VM where
  code := code
  codeSize := codeSize
  ip := 0
  stack := fun _ => 0
  sp := 0
  globals := fun _ => 0
  cstack := fun _ => 0
  csp := 0
  running := true
  printed := []

/-- An index of an array with 256 entries. -/
def stackIndex (i : Int) : Except VmStop Nat :=
  if 0 ≤ i ∧ i < 256 then .ok i.toNat else .error (.stackOutOfBounds i)

/-- `vm_push` -/
def vmPush (vm : VM) (num : CInt) : Except VmStop VM :=
  if vm.sp = 256 then .error .pushOverflow
  else do
    let i ← stackIndex vm.sp
    return { vm with stack := Function.update vm.stack i num, sp := vm.sp + 1 }

/-- `vm_pop` -/
def vmPop (vm : VM) : Except VmStop (CInt × VM) :=
  if vm.sp ≤ 0 then .error .popUnderflow
  else do
    let i ← stackIndex (vm.sp - 1)
    return (vm.stack i, { vm with sp := vm.sp - 1 })

/-- `vm_push_cs` -/
def vmPushCs (vm : VM) (ip : CInt) : Except VmStop VM :=
  if vm.csp = 256 then .error .cpushOverflow
  else do
    let i ← stackIndex vm.csp
    return { vm with cstack := Function.update vm.cstack i ip, csp := vm.csp + 1 }

/-- `vm_pop_cs` -/
def vmPopCs (vm : VM) : Except VmStop (CInt × VM) :=
  if vm.csp ≤ 0 then .error .cpopUnderflow
  else do
    let i ← stackIndex (vm.csp - 1)
    return (vm.cstack i, { vm with csp := vm.csp - 1 })

/-- `vm->code[vm->ip]` -/
def vmCode (vm : VM) : Except VmStop Byte :=
  if vm.ip < vm.codeSize then .ok (vm.code vm.ip) else .error (.codeOutOfBounds vm.ip)

/-- `vm->code[vm->ip++]` -/
def vmFetch (vm : VM) : Except VmStop (Byte × VM) := do
  let b ← vmCode vm
  return (b, { vm with ip := vm.ip + 1 })

/-- The arithmetic instructions: `b` is popped first, then `a`. -/
def vmArith (f : CInt → CInt → Except VmStop CInt) (vm : VM) : Except VmStop VM := do
  let (b, vm) ← vmPop vm
  let (a, vm) ← vmPop vm
  vmPush vm (← f a b)

/-- The comparing instructions: here `a` is popped first, then `b`. -/
def vmCompare (f : CInt → CInt → Bool) (vm : VM) : Except VmStop VM := do
  let (a, vm) ← vmPop vm
  let (b, vm) ← vmPop vm
  vmPush vm (if f a b then 1 else 0)

/-- `a / b` on `int`s. -/
def vmDiv (a b : CInt) : Except VmStop CInt :=
  if b = 0 then .error .divisionByZero
  else if a = BitVec.intMin 32 ∧ b = -1 then .error .divisionOverflow
  else .ok (a.sdiv b)

/-- The `switch` of `vm_run`, with the instruction's byte already fetched. -/
def vmExec (op : OpCode) (vm : VM) : Except VmStop VM :=
  match op with
  | .opPush => do
    let (value, vm) ← vmFetch vm
    vmPush vm (value.setWidth 32)
  | .opPop => do
    let (_, vm) ← vmPop vm
    return vm
  | .opAdd => vmArith (fun a b => .ok (a + b)) vm
  | .opSub => vmArith (fun a b => .ok (a - b)) vm
  | .opMul => vmArith (fun a b => .ok (a * b)) vm
  | .opDiv => vmArith vmDiv vm
  | .opEq => vmCompare (fun a b => a = b) vm
  | .opGt => vmCompare (fun a b => a.slt b) vm
  | .opLt => vmCompare (fun a b => b.slt a) vm
  | .opJmp => do
    let target ← vmCode vm
    return { vm with ip := target.toNat }
  | .opJmpIfFalse => do
    let (cond, vm) ← vmPop vm
    if cond ≠ 0 then return { vm with ip := vm.ip + 1 }
    else
      let target ← vmCode vm
      return { vm with ip := target.toNat }
  | .opStore => do
    let (val, vm) ← vmPop vm
    let (slot, vm) ← vmFetch vm
    return { vm with globals := Function.update vm.globals slot.toNat val }
  | .opLoad => do
    let (slot, vm) ← vmFetch vm
    vmPush vm (vm.globals slot.toNat)
  | .opCall => do
    let (dest, vm) ← vmFetch vm
    let vm ← vmPushCs vm (BitVec.ofNat 32 vm.ip)
    return { vm with ip := dest.toNat }
  | .opRet => do
    let (ip, vm) ← vmPopCs vm
    return { vm with ip := (ip.signExtend 64).toNat }
  | .opPrint => do
    let (value, vm) ← vmPop vm
    return { vm with printed := vm.printed ++ [value] }
  | .opHalt => return { vm with running := false }

/-- One round of the loop of `vm_run`. -/
def vmStep (vm : VM) : Except VmStop VM := do
  let (b, vm) ← vmFetch vm
  match OpCode.ofByte? b with
  | some op => vmExec op vm
  | none => .error (.unknownOpcode b)

/-- `vm_run` -/
def vmMachine : Machine VM VmStop where
  running vm := vm.running
  step := vmStep

end Bytecode

end SystemsProjects

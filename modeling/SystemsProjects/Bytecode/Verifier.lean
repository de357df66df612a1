import SystemsProjects.Bytecode.CompilerCorrect
import SystemsProjects.Bytecode.Decoding

/-!
# Checking bytecode before it runs

`vm_run` looks at its operand stack pointer at every push and pop. A table that says how many
numbers are on the stack in front of each instruction makes these looks unnecessary.

- `Flows`: what the table must satisfy at one instruction, given the entries it leads to.
- `Checked`: every entry of the table does; decidable for a table that is a list.
- `vmExec_goes`: what one instruction does to the pointers, or the fault of a division.
- `checked_run`: on checked code, in every state that `vm_run` reaches the operand stack is as
  high as the table says, and nothing but a division stops the run.
- `compiled_checked`: what `generate_byte` leaves in `byte_array` is checked by the table that
  counts, for each instruction, the operands the surrounding expression has waiting.

That a table describes the code is a local condition, one line for each address, and from it
follows what a run keeps, by induction over its steps with `Steady` as the invariant. The table
of a compiled program is built along the tree: `exprCode_flows` and `stmtCode_flows` check the
instructions of each construct, with the table of the parts given by the induction. No part of
this looks at a value on the stack.
-/

namespace SystemsProjects

namespace Bytecode

/-! ## What the instructions do to the stack -/

/-- The numbers an instruction takes from the operand stack. -/
def OpCode.pops : OpCode → Nat
  | .opPop | .opPrint | .opStore | .opJmpIfFalse => 1
  | .opAdd | .opSub | .opMul | .opDiv | .opEq | .opLt | .opGt => 2
  | .opPush | .opLoad | .opJmp | .opCall | .opRet | .opHalt => 0

/-- The numbers an instruction puts on the operand stack. -/
def OpCode.pushes : OpCode → Nat
  | .opPush | .opLoad | .opAdd | .opSub | .opMul | .opDiv | .opEq | .opLt | .opGt => 1
  | .opPop | .opPrint | .opStore | .opJmp | .opJmpIfFalse | .opCall | .opRet | .opHalt => 0

/-- The instruction behind this one may be the next. -/
def OpCode.continues : OpCode → Bool
  | .opJmp | .opCall | .opRet | .opHalt => false
  | _ => true

/-- The instruction at the address in the operand may be the next. -/
def OpCode.jumps : OpCode → Bool
  | .opJmp | .opJmpIfFalse => true
  | _ => false

/-- The instruction uses the call stack. -/
def OpCode.calls : OpCode → Bool
  | .opCall | .opRet => true
  | _ => false

/-- The operand stack behind an instruction, when `h` numbers are in front of it. -/
def OpCode.after (op : OpCode) (h : Nat) : Nat := h - op.pops + op.pushes

/-! ## Tables of heights -/

/-- How many numbers are on the operand stack in front of the instruction at an address; `none`
where no instruction begins. -/
abbrev Heights := Nat → Option Nat

/-- The instruction at `a` may be executed with `h` numbers on the stack, and whatever comes next
is entered as `H` says. -/
structure Flows (code : Nat → Byte) (size : Nat) (H : Heights) (a h : Nat) (op : OpCode) :
    Prop where
  op_eq : code a = op.toByte
  calls : op.calls = false
  inside : a + op.width < size
  pops : op.pops ≤ h
  bound : op.after h ≤ 256
  next : op.continues = true → H (a + 1 + op.width) = some (op.after h)
  target : op.jumps = true → H (code (a + 1)).toNat = some (op.after h)

/-- The table describes the code. -/
structure Checked (code : Nat → Byte) (size : Nat) (H : Heights) : Prop where
  entry : H 0 = some 0
  flows : ∀ a h, H a = some h → ∃ op, Flows code size H a h op

/-- A table given as a list. -/
def heightsOf (hs : List (Option Nat)) : Heights := fun a => hs[a]?.join

instance (code : Nat → Byte) (size : Nat) (H : Heights) (a h : Nat) (op : OpCode) :
    Decidable (Flows code size H a h op) :=
  decidable_of_iff (code a = op.toByte ∧ op.calls = false ∧ a + op.width < size ∧ op.pops ≤ h ∧
      op.after h ≤ 256 ∧ (op.continues = true → H (a + 1 + op.width) = some (op.after h)) ∧
      (op.jumps = true → H (code (a + 1)).toNat = some (op.after h)))
    ⟨fun ⟨h₁, h₂, h₃, h₄, h₅, h₆, h₇⟩ => ⟨h₁, h₂, h₃, h₄, h₅, h₆, h₇⟩,
      fun h => ⟨h.1, h.2, h.3, h.4, h.5, h.6, h.7⟩⟩

/-- Whether the table describes the code, entry by entry. -/
def checkBytecode (code : Nat → Byte) (size : Nat) (hs : List (Option Nat)) : Bool :=
  heightsOf hs 0 = some 0 && (List.range hs.length).all fun a =>
    (heightsOf hs a).all fun h =>
      (OpCode.ofByte? (code a)).any fun op => decide (Flows code size (heightsOf hs) a h op)

theorem lt_length_of_heightsOf {hs : List (Option Nat)} {a h : Nat}
    (hh : heightsOf hs a = some h) : a < hs.length := by
  by_contra hge
  rw [heightsOf, List.getElem?_eq_none (Nat.le_of_not_lt hge)] at hh
  cases hh

/-- The check decides `Checked`. -/
theorem checkBytecode_iff {code : Nat → Byte} {size : Nat} {hs : List (Option Nat)} :
    checkBytecode code size hs = true ↔ Checked code size (heightsOf hs) := by
  rw [checkBytecode, Bool.and_eq_true, decide_eq_true_eq, List.all_eq_true]
  constructor
  · rintro ⟨hentry, hall⟩
    refine ⟨hentry, fun a h hh => ?_⟩
    have hany := hall a (List.mem_range.mpr (lt_length_of_heightsOf hh))
    rw [hh, Option.all_some] at hany
    obtain ⟨op, -, hflows⟩ := (Option.any_eq_true _ _).mp hany
    exact ⟨op, of_decide_eq_true hflows⟩
  · rintro ⟨hentry, hflows⟩
    refine ⟨hentry, fun a _ => ?_⟩
    cases hh : heightsOf hs a with
    | none => rfl
    | some h =>
      obtain ⟨op, hop⟩ := hflows a h hh
      rw [Option.all_some, hop.op_eq, OpCode.ofByte?_toByte]
      exact decide_eq_true hop

/-! ## One step -/

/-- The faults of `OP_DIV`. -/
def VmStop.IsDivision (e : VmStop) : Prop := e = .divisionByZero ∨ e = .divisionOverflow

/-- What an instruction has done when the machine is at the next one. -/
structure Moved (op : OpCode) (vm vm' : VM) : Prop where
  code_eq : vm'.code = vm.code
  codeSize_eq : vm'.codeSize = vm.codeSize
  csp_eq : vm'.csp = vm.csp
  sp_eq : vm'.sp = vm.sp - op.pops + op.pushes
  next : vm'.running = false ∨ (op.continues = true ∧ vm'.ip = vm.ip + op.width) ∨
    (op.jumps = true ∧ vm'.ip = (vm.code vm.ip).toNat)

section Step

variable {vm : VM} {Q : VM → Prop}

/-- The result satisfies `Q`, or it is the fault of a division. -/
def Goes (Q : VM → Prop) : Except VmStop VM → Prop
  | .ok vm => Q vm
  | .error e => e.IsDivision

/-- A pop goes through when a number is there. -/
theorem Goes.pop {f : CInt × VM → Except VmStop VM} (hlo : 0 < vm.sp) (hhi : vm.sp ≤ 256)
    (h : ∀ v, Goes Q (f (v, { vm with sp := vm.sp - 1 }))) : Goes Q (vmPop vm >>= f) := by
  rw [vmPop_of_pos hlo hhi, ok_bind]
  exact h _

theorem Goes.push (hlo : 0 ≤ vm.sp) (hhi : vm.sp < 256) (v : CInt)
    (h : ∀ stack, Q { vm with stack := stack, sp := vm.sp + 1 }) : Goes Q (vmPush vm v) := by
  rw [vmPush_of_lt hlo hhi]
  exact h _

/-- A read of the code goes through inside it. -/
theorem Goes.code {f : Byte → Except VmStop VM} (hip : vm.ip < vm.codeSize)
    (h : Goes Q (f (vm.code vm.ip))) : Goes Q (vmCode vm >>= f) := by
  rw [vmCode, if_pos hip, ok_bind]
  exact h

theorem Goes.fetch {f : Byte × VM → Except VmStop VM} (hip : vm.ip < vm.codeSize)
    (h : Goes Q (f (vm.code vm.ip, { vm with ip := vm.ip + 1 }))) :
    Goes Q (vmFetch vm >>= f) := by
  rw [vmFetch_of_lt hip, ok_bind]
  exact h

/-- An arithmetic instruction takes two numbers and leaves one, or faults as a division does. -/
theorem Goes.arith {f : CInt → CInt → Except VmStop CInt}
    (hf : ∀ a b e, f a b = .error e → e.IsDivision) (hlo : 2 ≤ vm.sp) (hhi : vm.sp ≤ 256)
    (h : ∀ stack, Q { vm with stack := stack, sp := vm.sp - 1 - 1 + 1 }) :
    Goes Q (vmArith f vm) := by
  refine .pop (by omega) hhi fun b => .pop (by dsimp only; omega) (by dsimp only; omega) fun a => ?_
  dsimp only
  cases hvalue : f a b with
  | error e => exact hf a b e hvalue
  | ok v => exact .push (by dsimp only; omega) (by dsimp only; omega) v h

/-- A comparison takes two numbers and leaves one. -/
theorem Goes.compare (f : CInt → CInt → Bool) (hlo : 2 ≤ vm.sp) (hhi : vm.sp ≤ 256)
    (h : ∀ stack, Q { vm with stack := stack, sp := vm.sp - 1 - 1 + 1 }) :
    Goes Q (vmCompare f vm) :=
  .pop (by omega) hhi fun a => .pop (by dsimp only; omega) (by dsimp only; omega) fun b =>
    .push (by dsimp only; omega) (by dsimp only; omega) _ h

theorem isDivision_of_vmDiv {a b : CInt} {e : VmStop} (h : vmDiv a b = .error e) :
    e.IsDivision := by
  unfold vmDiv at h
  split at h
  · exact .inl (Except.error.inj h).symm
  · split at h
    · exact .inr (Except.error.inj h).symm
    · cases h

/-- What one instruction does, when its operands are on the stack and its operand byte is inside
the code. -/
theorem vmExec_goes {op : OpCode} (hcalls : op.calls = false)
    (hwidth : vm.ip + op.width ≤ vm.codeSize) (hlo : (op.pops : Int) ≤ vm.sp) (hhi : vm.sp ≤ 256)
    (hbound : vm.sp - op.pops + op.pushes ≤ 256) : Goes (Moved op vm) (vmExec op vm) := by
  -- where an operator of two numbers leaves the machine
  have htwo : ∀ op : OpCode, op.pops = 2 → op.pushes = 1 → op.width = 0 → op.continues = true →
      ∀ stack, Moved op vm { vm with stack := stack, sp := vm.sp - 1 - 1 + 1 } := by
    intro op hpops hpushes hwidth hcontinues stack
    refine ⟨rfl, rfl, rfl, ?_, .inr (.inl ⟨hcontinues, by rw [hwidth]; rfl⟩)⟩
    rw [hpops, hpushes]
    dsimp only
    omega
  -- of the arithmetic instructions, only `OP_DIV` can fault
  have hnever : ∀ {f : CInt → CInt → CInt} (a b : CInt) (e : VmStop),
      (.ok (f a b) : Except VmStop CInt) = .error e → e.IsDivision := by
    intro f a b e h
    cases h
  cases op with
  | opCall => cases hcalls
  | opRet => cases hcalls
  | opAdd =>
    rw [vmExec]
    exact .arith hnever hlo hhi (htwo .opAdd rfl rfl rfl rfl)
  | opSub =>
    rw [vmExec]
    exact .arith hnever hlo hhi (htwo .opSub rfl rfl rfl rfl)
  | opMul =>
    rw [vmExec]
    exact .arith hnever hlo hhi (htwo .opMul rfl rfl rfl rfl)
  | opDiv =>
    rw [vmExec]
    exact .arith (fun _ _ _ h => isDivision_of_vmDiv h) hlo hhi (htwo .opDiv rfl rfl rfl rfl)
  | opEq =>
    rw [vmExec]
    exact .compare _ hlo hhi (htwo .opEq rfl rfl rfl rfl)
  | opLt =>
    rw [vmExec]
    exact .compare _ hlo hhi (htwo .opLt rfl rfl rfl rfl)
  | opGt =>
    rw [vmExec]
    exact .compare _ hlo hhi (htwo .opGt rfl rfl rfl rfl)
  | opHalt => exact ⟨rfl, rfl, rfl, by simp [OpCode.pops, OpCode.pushes], .inl rfl⟩
  | opPush | opLoad =>
    simp only [OpCode.pops, OpCode.pushes, OpCode.width] at hlo hbound hwidth
    rw [vmExec]
    refine .fetch (by omega) (.push (by dsimp only; omega) (by dsimp only; omega) _ fun stack => ?_)
    exact ⟨rfl, rfl, rfl, by simp [OpCode.pops, OpCode.pushes], .inr (.inl ⟨rfl, rfl⟩)⟩
  | opPop | opPrint =>
    simp only [OpCode.pops] at hlo
    rw [vmExec]
    refine .pop (by omega) hhi fun v => ?_
    exact ⟨rfl, rfl, rfl, by simp [OpCode.pops, OpCode.pushes], .inr (.inl ⟨rfl, rfl⟩)⟩
  | opStore =>
    simp only [OpCode.pops, OpCode.width] at hlo hwidth
    rw [vmExec]
    refine .pop (by omega) hhi fun v => .fetch (by dsimp only; omega) ?_
    exact ⟨rfl, rfl, rfl, by simp [OpCode.pops, OpCode.pushes], .inr (.inl ⟨rfl, rfl⟩)⟩
  | opJmp =>
    simp only [OpCode.width] at hwidth
    rw [vmExec]
    -- the next instruction is the one at the operand
    refine .code (by omega) ?_
    exact ⟨rfl, rfl, rfl, by simp [OpCode.pops, OpCode.pushes], .inr (.inr ⟨rfl, rfl⟩)⟩
  | opJmpIfFalse =>
    simp only [OpCode.pops, OpCode.width] at hlo hwidth
    rw [vmExec]
    refine .pop (by omega) hhi fun cond => ?_
    dsimp only
    -- both ways out of a condition are in the table
    by_cases hcond : cond ≠ 0
    · rw [if_pos hcond]
      exact ⟨rfl, rfl, rfl, by simp [OpCode.pops, OpCode.pushes], .inr (.inl ⟨rfl, rfl⟩)⟩
    · rw [if_neg hcond]
      refine .code (by dsimp only; omega) ?_
      exact ⟨rfl, rfl, rfl, by simp [OpCode.pops, OpCode.pushes], .inr (.inr ⟨rfl, rfl⟩)⟩

end Step

/-! ## Runs of checked code -/

/-- The machine is where the table says. -/
structure Steady (code : Nat → Byte) (size : Nat) (H : Heights) (vm : VM) : Prop where
  code_eq : vm.code = code
  codeSize_eq : vm.codeSize = size
  csp_eq : vm.csp = 0
  height : ∃ h : Nat, vm.sp = h ∧ h ≤ 256 ∧ (vm.running = true → H vm.ip = some h)

section Runs

variable {code : Nat → Byte} {size : Nat} {H : Heights} {vm : VM}

/-- What is known behind an instruction may be weakened. -/
theorem Goes.imp {Q Q' : VM → Prop} {r : Except VmStop VM} (h : Goes Q r)
    (himp : ∀ vm, Q vm → Q' vm) : Goes Q' r := by
  cases r with
  | ok vm => exact himp vm h
  | error e => exact h

/-- One step keeps to the table, or it is a division that faults. -/
theorem Steady.step (hcheck : Checked code size H) (h : Steady code size H vm)
    (hrun : vm.running = true) : Goes (Steady code size H) (vmStep vm) := by
  obtain ⟨height, hsp, hle, htable⟩ := h.height
  obtain ⟨op, hflows⟩ := hcheck.flows _ _ (htable hrun)
  have hinside := hflows.inside
  have hpops := hflows.pops
  have hbound := hflows.bound
  -- the height behind the instruction, as the table computes it
  have hafter : vm.sp - op.pops + op.pushes = op.after height := by
    rw [OpCode.after]
    omega
  have hop : vm.code vm.ip = op.toByte := by
    rw [h.code_eq]
    exact hflows.op_eq
  have hsize : vm.ip + op.width < vm.codeSize := by
    rw [h.codeSize_eq]
    exact hinside
  rw [vmStep_eq (by omega) hop]
  refine Goes.imp (vmExec_goes hflows.calls (by dsimp only; omega) (by dsimp only; omega)
    (by dsimp only; omega) (by dsimp only; omega)) fun vm' hmoved => ?_
  refine ⟨hmoved.code_eq.trans h.code_eq, hmoved.codeSize_eq.trans h.codeSize_eq,
    hmoved.csp_eq.trans h.csp_eq, op.after height, hmoved.sp_eq.trans hafter, hbound, ?_⟩
  intro hrun'
  -- the entry of the next instruction: none, the one behind, or the target
  rcases hmoved.next with hhalt | ⟨hcontinues, hip⟩ | ⟨hjumps, hip⟩
  · rw [hhalt] at hrun'
    cases hrun'
  · rw [hip]
    exact hflows.next hcontinues
  · rw [hip, h.code_eq]
    exact hflows.target hjumps

/-- **Runs of checked code.** In every state that `vm_run` reaches, the call stack is empty and
the operand stack is as high as the table says for the next instruction; and the run stops in no
other way than on a division. -/
theorem checked_run (hcheck : Checked code size H) :
    (∀ k vm, vmMachine.Reaches k (vmInit code size) vm → Steady code size H vm) ∧
      ∀ e vm, vmMachine.FaultsIn (vmInit code size) e vm → e.IsDivision := by
  have hinit : Steady code size H (vmInit code size) :=
    ⟨rfl, rfl, rfl, 0, rfl, Nat.zero_le _, fun _ => hcheck.entry⟩
  have hreach : ∀ k vm, vmMachine.Reaches k (vmInit code size) vm → Steady code size H vm := by
    intro k vm h
    refine h.invariant (fun s s' hs hrun hstep => ?_) hinit
    have hgoes := hs.step hcheck hrun
    rw [show vmStep s = .ok s' from hstep] at hgoes
    exact hgoes
  refine ⟨hreach, fun e vm hfault => ?_⟩
  obtain ⟨⟨k, hk⟩, hrun, hstep⟩ := hfault.reaches
  have hgoes := (hreach k vm hk).step hcheck hrun
  rw [show vmStep vm = .error e from hstep] at hgoes
  exact hgoes

end Runs

/-- `x = 2`, and a loop that prints `x` and counts it down. -/
def countDown : Nat → Byte := fun a =>
  ([0x01, 2, 0x0E, 0, 0x0D, 0, 0x0C, 20, 0x0D, 0, 0x07, 0x0D, 0, 0x01, 1, 0x04, 0x0E, 0, 0x0B, 4,
    0xFF] : List Byte).getD a 0

/-- The heights of its stack. -/
def countDownHeights : List (Option Nat) :=
  [some 0, none, some 1, none, some 0, none, some 1, none, some 0, none, some 1, some 0, none,
    some 1, none, some 2, some 1, none, some 0, none, some 0]

theorem checked_run_countDown :
    (∀ k vm, vmMachine.Reaches k (vmInit countDown 21) vm →
      Steady countDown 21 (heightsOf countDownHeights) vm) ∧
      ∀ e vm, vmMachine.FaultsIn (vmInit countDown 21) e vm → e.IsDivision :=
  checked_run (checkBytecode_iff.mp (by decide))

/-! ## The table of a compiled program -/

/-- The table of an expression whose code is entered with `h` numbers on the stack. -/
def Expr.heights (h : Nat) : Expr → List (Option Nat)
  | .num _ => [some h, none]
  | .ident _ => [some h, none]
  | .bin _ l r => l.heights h ++ (r.heights (h + 1) ++ [some (h + 2)])

mutual

/-- The table of a statement: between statements the stack is empty. -/
def Stmt.heights : Stmt → List (Option Nat)
  | .assign _ e => e.heights 0 ++ [some 1, none]
  | .print e => e.heights 0 ++ [some 1]
  | .ifStmt c b => c.heights 0 ++ (some 1 :: none :: Stmt.heightsAll b)
  | .whileStmt c b => c.heights 0 ++ (some 1 :: none :: (Stmt.heightsAll b ++ [some 0, none]))

def Stmt.heightsAll : List Stmt → List (Option Nat)
  | [] => []
  | s :: ss => s.heights ++ Stmt.heightsAll ss

end

/-- The table of a list has its entries from 0 on. -/
theorem standsAt_heightsOf (hs : List (Option Nat)) : StandsAt (heightsOf hs) 0 hs := by
  intro i h hi
  rw [Nat.zero_add, heightsOf, hi]
  rfl

/-- The code of an expression begins with an instruction that finds `h` numbers. -/
theorem Expr.heights_head (h : Nat) (e : Expr) : ∃ hs, e.heights h = some h :: hs := by
  induction e generalizing h with
  | num v => exact ⟨_, rfl⟩
  | ident x => exact ⟨_, rfl⟩
  | bin op l r ihl _ =>
    obtain ⟨hs, heq⟩ := ihl h
    rw [Expr.heights, heq]
    exact ⟨_, rfl⟩

theorem Stmt.heights_head (s : Stmt) : ∃ hs, s.heights = some 0 :: hs := by
  cases s with
  | assign x e | print e | ifStmt e b | whileStmt e b =>
    obtain ⟨hs, heq⟩ := e.heights_head 0
    rw [Stmt.heights, heq]
    exact ⟨_, rfl⟩

/-- Every name that is read has a slot, so every `OP_LOAD` has its operand. -/
theorem Expr.length_heights {t : VarTable} {e : Expr} (he : e.Found t) (h : Nat) :
    (e.heights h).length = (exprCode t e).length := by
  induction e generalizing h with
  | num v => rfl
  | ident x =>
    obtain ⟨i, hi⟩ := Option.isSome_iff_exists.mp he
    rw [exprCode, hi]
    rfl
  | bin op l r ihl ihr =>
    simp only [Expr.heights, exprCode, List.length_append, List.length_singleton, ihl he.1,
      ihr he.2]

mutual

/-- The heights of a statement are as many as its bytes. -/
theorem Stmt.length_heights : ∀ (s : Stmt) {t : VarTable} (start : Nat), s.Found t →
    s.heights.length = (stmtCode t start s).length
  | .assign x e, t, start, hs => by
    rw [Stmt.heights, stmtCode, List.length_append, List.length_append,
      Expr.length_heights (t := t) hs]
    rfl
  | .print e, t, start, hs => by
    rw [Stmt.heights, stmtCode, List.length_append, List.length_append,
      Expr.length_heights (t := t) hs]
    rfl
  | .ifStmt c b, t, start, hs => by
    rw [Stmt.heights, stmtCode, ifCode_length, List.length_append,
      Expr.length_heights (t := t) hs.1, List.length_cons, List.length_cons,
      Stmt.length_heightsAll b (start + (exprCode t c).length + 2) hs.2]
    omega
  | .whileStmt c b, t, start, hs => by
    rw [Stmt.heights, stmtCode, whileCode_length, List.length_append,
      Expr.length_heights (t := t) hs.1, List.length_cons, List.length_cons, List.length_append,
      Stmt.length_heightsAll b (start + (exprCode t c).length + 2) hs.2]
    simp only [List.length_cons, List.length_nil]
    omega

theorem Stmt.length_heightsAll : ∀ (ss : List Stmt) {t : VarTable} (start : Nat),
    Stmt.FoundAll t ss → (Stmt.heightsAll ss).length = (stmtsCode t start ss).length
  | [], t, start, hs => rfl
  | s :: ss, t, start, hs => by
    rw [Stmt.heightsAll, stmtsCode, List.length_append, List.length_append,
      Stmt.length_heights s start hs.1, Stmt.length_heightsAll ss _ hs.2]

end

theorem not_jumps {op : OpCode} {P : Prop} (h : op.jumps = false) : op.jumps = true → P := by
  rw [h]
  intro hfalse
  cases hfalse

theorem BinOp.jumps_opCode (op : BinOp) : op.opCode.jumps = false := by cases op <;> rfl

/-- An operator takes two numbers and leaves one. -/
theorem BinOp.after_opCode (op : BinOp) (h : Nat) : op.opCode.after (h + 2) = h + 1 := by
  cases op <;> rfl

section Compiled

variable {code : Nat → Byte} {size : Nat} {H : Heights}

/-- The table describes the instructions at the addresses from `n` up to `m`. -/
def FlowsIn (code : Nat → Byte) (size : Nat) (H : Heights) (n m : Nat) : Prop :=
  ∀ a h, n ≤ a → a < m → H a = some h → ∃ op, Flows code size H a h op

theorem FlowsIn.append {n m l : Nat} (h : FlowsIn code size H n m) (h' : FlowsIn code size H m l) :
    FlowsIn code size H n l := by
  intro a x hn hl hx
  rcases Nat.lt_or_ge a m with hm | hm
  · exact h a x hn hm hx
  · exact h' a x hm hl hx

/-- An instruction without an operand. -/
theorem FlowsIn.one {n h : Nat} {op : OpCode} (hH : H n = some h)
    (hflows : Flows code size H n h op) : FlowsIn code size H n (n + 1) := by
  intro a x hn hm hx
  obtain rfl : a = n := by omega
  rw [hH] at hx
  obtain rfl := Option.some.inj hx
  exact ⟨op, hflows⟩

/-- An instruction with an operand, where none begins. -/
theorem FlowsIn.two {n h : Nat} {op : OpCode} (hH : H n = some h) (hnone : H (n + 1) = none)
    (hflows : Flows code size H n h op) : FlowsIn code size H n (n + 2) := by
  intro a x hn hm hx
  obtain rfl | rfl : a = n ∨ a = n + 1 := by omega
  · rw [hH] at hx
    obtain rfl := Option.some.inj hx
    exact ⟨op, hflows⟩
  · rw [hnone] at hx
    cases hx

/-- The code of an expression leaves one number more. -/
theorem exprCode_flows {t : VarTable} {e : Expr} (he : e.Found t) {n h : Nat}
    (hcode : StandsAt code n (exprCode t e)) (hH : StandsAt H n (e.heights h))
    (hend : H (n + (exprCode t e).length) = some (h + 1))
    (hsize : n + (exprCode t e).length ≤ size) (hbound : h + (exprCode t e).length ≤ 256) :
    FlowsIn code size H n (n + (exprCode t e).length) := by
  induction e generalizing n h with
  | num v =>
    -- `OP_PUSH` with its operand
    have hbound : h + 2 ≤ 256 := hbound
    obtain ⟨hop, -⟩ := hcode.cons
    obtain ⟨hfirst, hsecond⟩ := hH.cons
    refine .two hfirst hsecond.cons.1
      ⟨hop, rfl, hsize, Nat.zero_le _, ?_, fun _ => hend, not_jumps rfl⟩
    show h - 0 + 1 ≤ 256
    omega
  | ident x =>
    -- the name has a slot, so `OP_LOAD` has its operand
    obtain ⟨i, hi⟩ := Option.isSome_iff_exists.mp he
    rw [exprCode, hi] at hcode hend hsize hbound ⊢
    have hbound : h + 2 ≤ 256 := hbound
    obtain ⟨hop, -⟩ := hcode.cons
    obtain ⟨hfirst, hsecond⟩ := hH.cons
    refine .two hfirst hsecond.cons.1
      ⟨hop, rfl, hsize, Nat.zero_le _, ?_, fun _ => hend, not_jumps rfl⟩
    show h - 0 + 1 ≤ 256
    omega
  | bin op l r ihl ihr =>
    rw [exprCode] at hcode hend hsize hbound ⊢
    simp only [List.length_append, List.length_singleton, ← Nat.add_assoc] at hend hsize hbound ⊢
    -- the code and the table fall into the same three parts
    obtain ⟨hcodel, hcode⟩ := hcode.append
    obtain ⟨hcoder, hcodeop⟩ := hcode.append
    obtain ⟨hHl, hH⟩ := hH.append
    obtain ⟨hHr, hHop⟩ := hH.append
    rw [Expr.length_heights he.1] at hHr hHop
    rw [Expr.length_heights he.2] at hHop
    -- in front of the right operand the left one is waiting
    obtain ⟨hs, hhead⟩ := r.heights_head (h + 1)
    have hmid : H (n + (exprCode t l).length) = some (h + 1) := by
      rw [hhead] at hHr
      exact hHr.cons.1
    have hlast : H (n + (exprCode t l).length + (exprCode t r).length) = some (h + 2) := hHop.cons.1
    have hl := ihl he.1 hcodel hHl hmid (by omega) (by omega)
    have hr := ihr he.2 hcoder hHr hlast (by omega) (by omega)
    refine (hl.append hr).append (.one hlast ⟨hcodeop.cons.1, ?_, ?_, ?_, ?_, fun _ => ?_, ?_⟩)
    · cases op <;> rfl
    · have hwidth : op.opCode.width = 0 := by cases op <;> rfl
      omega
    · have hpops : op.opCode.pops = 2 := by cases op <;> rfl
      omega
    · rw [op.after_opCode]
      omega
    · have hwidth : op.opCode.width = 0 := by cases op <;> rfl
      rw [op.after_opCode, hwidth]
      exact hend
    · exact not_jumps op.jumps_opCode

/-- A condition: the jump goes to `m` or is not taken. -/
theorem condition_flows {t : VarTable} {c : Expr} (hc : c.Found t) {n m : Nat} {bs : List Byte}
    {hs : List (Option Nat)}
    (hcode : StandsAt code n (exprCode t c ++ OpCode.opJmpIfFalse.toByte :: BitVec.ofNat 8 m :: bs))
    (hH : StandsAt H n (c.heights 0 ++ some 1 :: none :: hs)) (hm : m < 256)
    (hnext : H (n + (exprCode t c).length + 2) = some 0) (htarget : H m = some 0)
    (hsize : n + (exprCode t c).length + 2 ≤ size) (hbound : (exprCode t c).length ≤ 256) :
    FlowsIn code size H n (n + (exprCode t c).length + 2) := by
  obtain ⟨hcodec, hcode⟩ := hcode.append
  obtain ⟨hHc, hH⟩ := hH.append
  rw [Expr.length_heights hc] at hH
  obtain ⟨hop, hoperand⟩ := hcode.cons
  obtain ⟨hone, hrest⟩ := hH.cons
  have hcond : FlowsIn code size H n (n + (exprCode t c).length) :=
    exprCode_flows hc hcodec hHc hone (by omega) (by omega)
  refine hcond.append (.two hone hrest.cons.1 ⟨hop, rfl, hsize, Nat.le_refl 1, by decide,
    fun _ => hnext, fun _ => ?_⟩)
  rw [hoperand.cons.1, toNat_byte hm]
  exact htarget

/-- Statements are entered with an empty stack. -/
theorem heightsAll_head {ss : List Stmt} {n : Nat} (hH : StandsAt H n (Stmt.heightsAll ss))
    (hend : H (n + (Stmt.heightsAll ss).length) = some 0) : H n = some 0 := by
  cases ss with
  | nil => exact hend
  | cons s ss =>
    obtain ⟨hs, heq⟩ := s.heights_head
    rw [Stmt.heightsAll, heq] at hH
    exact hH.append.1.cons.1

mutual

/-- The code of a statement leaves the stack as empty as it found it. -/
theorem stmtCode_flows : ∀ {s : Stmt} {t : VarTable} {n : Nat}, s.Found t →
    StandsAt code n (stmtCode t n s) → StandsAt H n s.heights →
    H (n + (stmtCode t n s).length) = some 0 → n + (stmtCode t n s).length ≤ size →
    n + (stmtCode t n s).length < 256 →
    FlowsIn code size H n (n + (stmtCode t n s).length)
  | .assign x e, t, n, hs, hcode, hH, hend, hsize, hfit => by
    rw [stmtCode] at hcode hend hsize hfit ⊢
    rw [Stmt.heights] at hH
    simp only [List.length_append, List.length_cons, List.length_nil, ← Nat.add_assoc]
      at hend hsize hfit ⊢
    obtain ⟨hcodee, hcode⟩ := hcode.append
    obtain ⟨hHe, hH⟩ := hH.append
    rw [Expr.length_heights (t := t) hs] at hH
    obtain ⟨hone, hrest⟩ := hH.cons
    have he : FlowsIn code size H n (n + (exprCode t e).length) :=
      exprCode_flows hs hcodee hHe hone (by omega) (by omega)
    exact he.append (.two hone hrest.cons.1 ⟨hcode.cons.1, rfl, hsize, Nat.le_refl 1, by decide,
      fun _ => hend, not_jumps rfl⟩)
  | .print e, t, n, hs, hcode, hH, hend, hsize, hfit => by
    rw [stmtCode] at hcode hend hsize hfit ⊢
    rw [Stmt.heights] at hH
    simp only [List.length_append, List.length_cons, List.length_nil, ← Nat.add_assoc]
      at hend hsize hfit ⊢
    obtain ⟨hcodee, hcode⟩ := hcode.append
    obtain ⟨hHe, hH⟩ := hH.append
    rw [Expr.length_heights (t := t) hs] at hH
    have he : FlowsIn code size H n (n + (exprCode t e).length) :=
      exprCode_flows hs hcodee hHe hH.cons.1 (by omega) (by omega)
    exact he.append (.one hH.cons.1 ⟨hcode.cons.1, rfl, hsize, Nat.le_refl 1, by decide,
      fun _ => hend, not_jumps rfl⟩)
  | .ifStmt c b, t, n, hs, hcode, hH, hend, hsize, hfit => by
    rw [stmtCode, ifCode] at hcode
    rw [stmtCode, ifCode_length, ← Nat.add_assoc, ← Nat.add_assoc] at hend hsize hfit ⊢
    rw [Stmt.heights] at hH
    have hHb := hH.append.2.cons.2.cons.2
    rw [Expr.length_heights (t := t) hs.1] at hHb
    have hlen := Stmt.length_heightsAll b (n + (exprCode t c).length + 2) hs.2
    have hbody := heightsAll_head hHb (by rw [hlen]; exact hend)
    have hcond : FlowsIn code size H n (n + (exprCode t c).length + 2) :=
      condition_flows hs.1 hcode hH hfit hbody hend (by omega) (by omega)
    exact hcond.append
      (stmtsCode_flows hs.2 hcode.append.2.cons.2.cons.2 hHb hend hsize hfit)
  | .whileStmt c b, t, n, hs, hcode, hH, hend, hsize, hfit => by
    rw [stmtCode, whileCode] at hcode
    rw [stmtCode, whileCode_length, ← Nat.add_assoc, ← Nat.add_assoc, ← Nat.add_assoc]
      at hend hsize hfit ⊢
    rw [Stmt.heights] at hH
    have hHb := hH.append.2.cons.2.cons.2
    rw [Expr.length_heights (t := t) hs.1] at hHb
    obtain ⟨hHb, hHj⟩ := hHb.append
    have hlen := Stmt.length_heightsAll b (n + (exprCode t c).length + 2) hs.2
    rw [hlen] at hHj
    obtain ⟨hjump, hoperand⟩ := hHj.cons
    obtain ⟨hcodeb, hcodej⟩ := hcode.append.2.cons.2.cons.2.append
    have hbody := heightsAll_head hHb (by rw [hlen]; exact hjump)
    -- the jump back goes to the condition, which finds the stack empty
    obtain ⟨hs', hhead⟩ := c.heights_head 0
    have hstart : H n = some 0 := by
      rw [hhead] at hH
      exact hH.append.1.cons.1
    have hcond : FlowsIn code size H n (n + (exprCode t c).length + 2) :=
      condition_flows hs.1 hcode hH hfit hbody hend (by omega) (by omega)
    have hblock : FlowsIn code size H (n + (exprCode t c).length + 2)
        (n + (exprCode t c).length + 2 +
          (stmtsCode t (n + (exprCode t c).length + 2) b).length) :=
      stmtsCode_flows hs.2 hcodeb hHb hjump (by omega) (by omega)
    refine (hcond.append hblock).append (.two hjump hoperand.cons.1
      ⟨hcodej.cons.1, rfl, hsize, Nat.le_refl 0, by decide, nofun, fun _ => ?_⟩)
    rw [hcodej.cons.2.cons.1, toNat_byte (by omega)]
    exact hstart

/-- The same of statements one after the other. -/
theorem stmtsCode_flows : ∀ {ss : List Stmt} {t : VarTable} {n : Nat}, Stmt.FoundAll t ss →
    StandsAt code n (stmtsCode t n ss) → StandsAt H n (Stmt.heightsAll ss) →
    H (n + (stmtsCode t n ss).length) = some 0 → n + (stmtsCode t n ss).length ≤ size →
    n + (stmtsCode t n ss).length < 256 →
    FlowsIn code size H n (n + (stmtsCode t n ss).length)
  | [], t, n, hs, hcode, hH, hend, hsize, hfit => fun a h hn hm => by
    have hm : a < n := hm
    omega
  | s :: ss, t, n, hs, hcode, hH, hend, hsize, hfit => by
    rw [stmtsCode] at hcode hend hsize hfit ⊢
    rw [Stmt.heightsAll] at hH
    rw [List.length_append] at hend hsize hfit ⊢
    rw [← Nat.add_assoc] at hend hsize hfit ⊢
    obtain ⟨hHs, hHss⟩ := hH.append
    rw [Stmt.length_heights s n hs.1] at hHss
    have hmid := heightsAll_head hHss
      (by rw [Stmt.length_heightsAll ss (n + (stmtCode t n s).length) hs.2]; exact hend)
    exact (stmtCode_flows hs.1 hcode.append.1 hHs hmid (by omega) (by omega)).append
      (stmtsCode_flows hs.2 hcode.append.2 hHss hend hsize hfit)

end

end Compiled

/-- The table of the code of a program, with its `OP_HALT`, wherever the program comes from. -/
theorem stmtsCode_checked {prog : List Stmt} (hfound : Stmt.FoundAll .empty prog)
    (hfit : Stmt.sizeList .empty prog + 1 ≤ 256) (mem : Nat → Byte) :
    Checked (overwrite mem 0 (stmtsCode .empty 0 prog ++ [OpCode.opHalt.toByte])) byteArraySize
      (heightsOf (Stmt.heightsAll prog ++ [some 0])) := by
  rw [← stmtsCode_length prog .empty 0] at hfit
  have hlen := Stmt.length_heightsAll prog 0 hfound
  obtain ⟨hcode, hhalt⟩ := StandsAt.append
    (standsAt_overwrite mem 0 (stmtsCode .empty 0 prog ++ [OpCode.opHalt.toByte]))
  obtain ⟨hH, hHhalt⟩ := (standsAt_heightsOf (Stmt.heightsAll prog ++ [some 0])).append
  have hlast := hHhalt.cons.1
  rw [hlen] at hlast
  -- the statements
  have hflows : FlowsIn (overwrite mem 0 (stmtsCode .empty 0 prog ++ [OpCode.opHalt.toByte]))
      byteArraySize (heightsOf (Stmt.heightsAll prog ++ [some 0])) 0
      (0 + (stmtsCode .empty 0 prog).length) :=
    stmtsCode_flows hfound hcode hH hlast (by unfold byteArraySize; omega) (by omega)
  -- and the `OP_HALT` behind them, which leads nowhere
  have hend : FlowsIn (overwrite mem 0 (stmtsCode .empty 0 prog ++ [OpCode.opHalt.toByte]))
      byteArraySize (heightsOf (Stmt.heightsAll prog ++ [some 0]))
      (0 + (stmtsCode .empty 0 prog).length) (0 + (stmtsCode .empty 0 prog).length + 1) := by
    exact .one hlast ⟨hhalt.cons.1, rfl, by show _ + 0 < 4096; omega, Nat.zero_le _, by decide,
      nofun, nofun⟩
  refine ⟨heightsAll_head hH (by rw [hlen]; exact hlast), fun a h hh => ?_⟩
  have hlt := lt_length_of_heightsOf hh
  rw [List.length_append, hlen, List.length_singleton] at hlt
  exact (hflows.append hend) a h (Nat.zero_le a) (by omega) hh

/-- **The table of a compiled program describes its code**: `generate_byte` goes through on the
nodes of the program and leaves checked code in `byte_array`, when every name that is read has
been assigned further up and the code has at most 256 bytes. -/
theorem compiled_checked {statements : List Node} {len : Nat} {prog : List Stmt}
    (hprog : program? statements len = some prog) (hfound : Stmt.FoundAll .empty prog)
    (hfit : Stmt.sizeList .empty prog + 1 ≤ 256) (mem : Nat → Byte) :
    ∃ g, generateByte mem .empty statements len = .ok g ∧
      Checked g.byteArray byteArraySize (heightsOf (Stmt.heightsAll prog ++ [some 0])) := by
  obtain ⟨g, hg, hbytes⟩ := generateByte_yields mem hprog hfit
  refine ⟨g, hg, ?_⟩
  rw [hbytes]
  exact stmtsCode_checked hfound hfit mem

/-- The table of the program of `main`. -/
theorem compiled_checked_main :
    ∃ g, generateByte (fun _ => 0) .empty mainStatements 2 = .ok g ∧
      Checked g.byteArray byteArraySize (heightsOf (Stmt.heightsAll mainProgram ++ [some 0])) := by
  have hprog : program? mainStatements 2 = some mainProgram := rfl
  have hfound : Stmt.FoundAll .empty mainProgram :=
    ⟨trivial, ⟨⟨rfl, trivial⟩, rfl, ⟨rfl, trivial⟩, trivial⟩, trivial⟩
  exact compiled_checked hprog hfound (by decide) _

end Bytecode

end SystemsProjects

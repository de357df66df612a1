import SystemsProjects.Bytecode.VmSafety

/-!
# Division

`OP_DIV` stops on a zero divisor. The one other pair of operands whose quotient is no `int` is
`INT_MIN` and `-1`, and nothing looks for it.

- `ExactReach`: the states that `vm_run` comes to while no addition, subtraction or
  multiplication overflows.
- `vmArith_eq`: the arithmetic instructions on a stack that holds their operands.
- `divides_iff`: what `OP_DIV` does, in every such state.
- `trapCode`: a program that builds the bad pair out of one-byte literals.

The claim of exactness is about runs in which the other operations were exact too, so the states
are given by a relation of their own. `vmStep_div` turns one division into its arithmetic; the
operands are `int`s, so the quotient is one except in the one case that `divides_iff` names.
`trapCode` shows that the case is reached without any overflow on the way.
-/

namespace SystemsProjects

namespace Bytecode

/-! ## Exact runs -/

/-- The number is an `int`. -/
def IsInt (v : Int) : Prop := -2147483648 ≤ v ∧ v ≤ 2147483647

instance (v : Int) : Decidable (IsInt v) := inferInstanceAs (Decidable (_ ∧ _))

/-- The stack slot with `k` slots above it. -/
def VM.top (vm : VM) (k : Nat) : CInt := vm.stack (vm.sp - (k + 1)).toNat

/-- The exact result of the instructions that may overflow, on `a` and `b`. -/
def exactResult : Option OpCode → Int → Int → Int
  | some .opAdd, a, b => a + b
  | some .opSub, a, b => a - b
  | some .opMul, a, b => a * b
  | _, _, _ => 0

/-- The next instruction does not overflow. -/
def ExactNext (vm : VM) : Prop :=
  IsInt (exactResult (OpCode.ofByte? (vm.code vm.ip)) (vm.top 1).toInt (vm.top 0).toInt)

instance (vm : VM) : Decidable (ExactNext vm) := inferInstanceAs (Decidable (IsInt _))

/-- The states after `vm_init` up to which every addition, subtraction and multiplication had
its exact result. -/
inductive ExactReach (code : Nat → Byte) (codeSize : Nat) : VM → Prop where
  | init : ExactReach code codeSize (vmInit code codeSize)
  | step {vm vm' : VM} (h : ExactReach code codeSize vm) (hrun : vm.running = true)
    (hexact : ExactNext vm) (hstep : vmStep vm = .ok vm') : ExactReach code codeSize vm'

/-- The indices of the machine are in range along exact steps too. -/
theorem ExactReach.inRange {code : Nat → Byte} {codeSize : Nat} {vm : VM}
    (h : ExactReach code codeSize vm) : vm.InRange := by
  -- an exact run is a run, so that the stack pointer stays in its range
  have hsound : ∃ hist, Sound hist vm := by
    induction h with
    | init => exact ⟨[], sound_vmInit code codeSize⟩
    | step _ _ _ hstep ih =>
      obtain ⟨hist, hs⟩ := ih
      obtain ⟨as, has⟩ := vmStep_completes hstep
      exact ⟨_, hs.trail has.1⟩
  obtain ⟨hist, hs⟩ := hsound
  exact hs.range

/-! ## Arithmetic on the topmost values -/

section Arith

variable {vm : VM}

/-- With two values on the stack, their result takes their place. -/
theorem vmArith_eq (f : CInt → CInt → Except VmStop CInt) (htwo : 2 ≤ vm.sp)
    (hle : vm.sp ≤ 256) :
    vmArith f vm = f (vm.top 1) (vm.top 0) >>= fun v => .ok { vm with
      stack := Function.update vm.stack (vm.sp - 2).toNat v, sp := vm.sp - 1 } := by
  have hpop₁ := @vmPop_of_pos vm (by omega) hle
  have hpop₂ := @vmPop_of_pos { vm with sp := vm.sp - 1 } (by dsimp only; omega)
    (by dsimp only; omega)
  have hnext : vm.stack (vm.sp - 1 - 1).toNat = vm.top 1 := by
    rw [VM.top]
    congr 2
    omega
  rw [vmArith, hpop₁, ok_bind]
  dsimp only at hpop₂ ⊢
  rw [hpop₂, ok_bind, hnext, show vm.stack (vm.sp - 1).toNat = vm.top 0 from rfl]
  -- the result goes to the slot of the operand below
  cases f (vm.top 1) (vm.top 0) with
  | error e => rfl
  | ok v =>
    rw [ok_bind, ok_bind, vmPush_of_lt (by dsimp only; omega) (by dsimp only; omega)]
    have hsp : vm.sp - 1 - 1 = vm.sp - 2 := by omega
    have hsp' : vm.sp - 2 + 1 = vm.sp - 1 := by omega
    dsimp only
    rw [hsp, hsp']

/-- With fewer than two values it stops on the empty stack. -/
theorem vmArith_underflow (f : CInt → CInt → Except VmStop CInt) (htwo : vm.sp < 2)
    (hle : 0 ≤ vm.sp) : vmArith f vm = .error .popUnderflow := by
  by_cases hone : vm.sp = 1
  · have hpop := @vmPop_of_pos vm (by omega) (by omega)
    rw [vmArith, hpop, ok_bind]
    dsimp only
    rw [vmPop, if_pos (by dsimp only; omega), error_bind]
  · rw [vmArith, vmPop, if_pos (by omega), error_bind]

end Arith

/-! ## `OP_DIV` -/

/-- `OP_DIV` stops on a zero divisor with its message, and else replaces its operands by the
exact truncated quotient, which is an `int`. -/
def Divides (vm : VM) : Prop :=
  (vm.top 0 = 0 ∧ vmStep vm = .error .divisionByZero) ∨
    (vm.top 0 ≠ 0 ∧ IsInt ((vm.top 1).toInt.tdiv (vm.top 0).toInt) ∧
      ∃ vm', vmStep vm = .ok vm' ∧ vm'.sp = vm.sp - 1 ∧
        (vm'.top 0).toInt = (vm.top 1).toInt.tdiv (vm.top 0).toInt)

/-- A 32-bit value is inside the range of `int`. -/
theorem isInt_toInt (a : CInt) : IsInt a.toInt := by
  have hlo := BitVec.le_toInt a
  have hhi := BitVec.toInt_lt (x := a)
  exact ⟨by omega, by omega⟩

/-- `OP_DIV` with two operands. -/
theorem vmStep_div {vm : VM} (hip : vm.ip < vm.codeSize)
    (hop : vm.code vm.ip = OpCode.opDiv.toByte) (htwo : 2 ≤ vm.sp) (hle : vm.sp ≤ 256) :
    vmStep vm = vmDiv (vm.top 1) (vm.top 0) >>= fun v => .ok { vm with
      ip := vm.ip + 1, stack := Function.update vm.stack (vm.sp - 2).toNat v, sp := vm.sp - 1 } :=
  (vmStep_eq hip hop).trans (@vmArith_eq { vm with ip := vm.ip + 1 } vmDiv htwo hle)

/-- The quotient of `INT_MIN` and `-1` is 2147483648. -/
theorem not_divides_of_min {vm : VM} (hip : vm.ip < vm.codeSize)
    (hop : vm.code vm.ip = OpCode.opDiv.toByte) (htwo : 2 ≤ vm.sp) (hle : vm.sp ≤ 256)
    (hmin : vm.top 1 = BitVec.intMin 32 ∧ vm.top 0 = -1) :
    vmStep vm = .error .divisionOverflow ∧ ¬ Divides vm := by
  have hzero : vm.top 0 ≠ 0 := by
    rw [hmin.2]
    decide
  have hstep := vmStep_div hip hop htwo hle
  rw [vmDiv, if_neg hzero, if_pos hmin, error_bind] at hstep
  refine ⟨hstep, ?_⟩
  rintro (⟨h0, -⟩ | ⟨-, -, vm', hok, -⟩)
  · exact hzero h0
  · rw [hstep] at hok
    cases hok

/-- In every state that an exact run comes to, division is exact or stops with its message,
exactly when there are two operands and they are not `INT_MIN` and `-1`. -/
theorem divides_iff {code : Nat → Byte} {codeSize : Nat} {vm : VM}
    (h : ExactReach code codeSize vm) (hip : vm.ip < vm.codeSize)
    (hop : vm.code vm.ip = OpCode.opDiv.toByte) :
    Divides vm ↔ 2 ≤ vm.sp ∧ ¬ (vm.top 1 = BitVec.intMin 32 ∧ vm.top 0 = -1) := by
  obtain ⟨hlo, hhi⟩ : 0 ≤ vm.sp ∧ vm.sp ≤ 256 := h.inRange .stack
  by_cases htwo : 2 ≤ vm.sp
  · rw [and_iff_right htwo]
    have harith := vmStep_div hip hop htwo hhi
    by_cases hzero : vm.top 0 = 0
    · -- the guard of `OP_DIV`: the program stops with its message
      rw [vmDiv, if_pos hzero, error_bind] at harith
      refine iff_of_true (.inl ⟨hzero, harith⟩) ?_
      rintro ⟨-, hone⟩
      exact absurd (hzero.symm.trans hone) (by decide)
    · -- the divisor is not zero, and the guard has let the pair through
      by_cases hmin : vm.top 1 = BitVec.intMin 32 ∧ vm.top 0 = -1
      · exact iff_of_false (not_divides_of_min hip hop htwo hhi hmin).2 (not_not_intro hmin)
      · rw [vmDiv, if_neg hzero, if_neg hmin, ok_bind] at harith
        -- the quotient fits an `int`
        have hexact : ((vm.top 1).sdiv (vm.top 0)).toInt =
            (vm.top 1).toInt.tdiv (vm.top 0).toInt :=
          BitVec.toInt_sdiv_of_ne_or_ne _ _ (not_and_or.mp hmin)
        refine iff_of_true (.inr ⟨hzero, ?_, _, harith, rfl, ?_⟩) hmin
        · rw [← hexact]
          exact isInt_toInt _
        · rw [← hexact]
          have hindex : (vm.sp - 1 - (0 + 1)).toNat = (vm.sp - 2).toNat := by omega
          show (Function.update vm.stack (vm.sp - 2).toNat ((vm.top 1).sdiv (vm.top 0))
            (vm.sp - 1 - (0 + 1)).toNat).toInt = _
          rw [hindex, Function.update_self]
  · -- there is no second operand: `vm_pop` stops the program
    have hunder := (vmStep_eq hip hop).trans (@vmArith_underflow
      { vm with ip := vm.ip + 1 } vmDiv (Int.lt_of_not_ge htwo) hlo)
    refine iff_of_false ?_ fun hc => htwo hc.1
    rintro (⟨-, hzero⟩ | ⟨-, -, vm', hok, -⟩)
    · rw [hunder] at hzero
      cases hzero
    · rw [hunder] at hok
      cases hok

/-! ## The bad pair -/

/-- `0 - 128`, three times times 128, times 8: `INT_MIN`; then `0 - 1` and `OP_DIV`. -/
def trapBytes : List Byte :=
  [0x01, 0, 0x01, 128, 0x04, 0x01, 128, 0x05, 0x01, 128, 0x05, 0x01, 128, 0x05, 0x01, 8, 0x05,
   0x01, 0, 0x01, 1, 0x04, 0x06, 0xFF]

/-- The bytes in an array. -/
def trapCode (i : Nat) : Byte := trapBytes.getD i 0xFF

/-- `n` rounds of the loop, as long as they are exact. -/
def exactRun : Nat → VM → Option VM
  | 0, vm => some vm
  | n + 1, vm =>
    if vm.running = true ∧ ExactNext vm then
      match vmStep vm with
      | .ok vm' => exactRun n vm'
      | .error _ => none
    else none

theorem ExactReach.run {code : Nat → Byte} {codeSize n : Nat} {vm vm' : VM}
    (h : ExactReach code codeSize vm) (hrun : exactRun n vm = some vm') :
    ExactReach code codeSize vm' := by
  induction n generalizing vm with
  | zero =>
    obtain rfl := Option.some.inj hrun
    exact h
  | succ n ih =>
    rw [exactRun] at hrun
    split at hrun
    · next hc =>
      split at hrun
      · next vm₁ hstep => exact ih (h.step hc.1 hc.2 hstep) hrun
      · cases hrun
    · cases hrun

/-- At `OP_DIV`, with the bad pair as the only values on the stack. -/
def VM.AtTrap (vm : VM) : Prop :=
  vm.ip < vm.codeSize ∧ vm.code vm.ip = OpCode.opDiv.toByte ∧ vm.sp = 2 ∧
    vm.top 1 = BitVec.intMin 32 ∧ vm.top 0 = -1

instance (vm : VM) : Decidable vm.AtTrap := inferInstanceAs (Decidable (_ ∧ _))

/-- The program comes to its division without any overflow, and there the quotient of the two
values on the stack is no `int`. -/
theorem not_divides_trapCode : ∃ vm, ExactReach trapCode 24 vm ∧ vm.AtTrap ∧
    vmStep vm = .error .divisionOverflow ∧ ¬ Divides vm := by
  have hrun : ((exactRun 14 (vmInit trapCode 24)).any fun vm => vm.AtTrap) = true := by
    decide +kernel
  obtain ⟨vm, hvm, htrap⟩ := (Option.any_eq_true _ _).mp hrun
  have htrap := of_decide_eq_true htrap
  obtain ⟨hip, hop, hsp, hmin⟩ := htrap
  exact ⟨vm, ExactReach.init.run hvm, ⟨hip, hop, hsp, hmin⟩,
    not_divides_of_min hip hop (by omega) (by omega) hmin⟩

/-- `7 / 2` -/
def quotientCode (i : Nat) : Byte := [0x01, 7, 0x01, 2, 0x06, 0xFF].getD i 0xFF

/-- The division of the program above is reached, and it is exact. -/
theorem divides_quotientCode : ∃ vm, ExactReach quotientCode 6 vm ∧ Divides vm := by
  have hrun : ((exactRun 2 (vmInit quotientCode 6)).any fun vm => vm.ip < vm.codeSize ∧
      vm.code vm.ip = OpCode.opDiv.toByte ∧ vm.sp = 2 ∧ vm.top 0 ≠ -1) = true := by
    decide +kernel
  obtain ⟨vm, hvm, hat⟩ := (Option.any_eq_true _ _).mp hrun
  obtain ⟨hip, hop, hsp, hne⟩ := of_decide_eq_true hat
  have hreach := ExactReach.init.run hvm
  exact ⟨vm, hreach, (divides_iff hreach hip hop).mpr ⟨by omega, fun h => hne h.2⟩⟩

end Bytecode

end SystemsProjects

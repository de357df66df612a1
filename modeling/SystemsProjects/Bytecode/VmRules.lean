import SystemsProjects.Lib.Checked
import SystemsProjects.Bytecode.Vm

/-!
# Rules for single instructions

`VM.At` describes a running machine by what a compiled program can observe: its code
and position, the operand stack as a list (top last), the globals and the numbers
printed. Each instruction that the code generator emits has one rule, which says where
the machine is after it; the instructions themselves are not unfolded again.

The stack of `VM.At` is a list with its top last, so a push appends; the array of the machine
agrees with it below `sp` and is left open above. A rule asks for room only where its
instruction pushes.
-/

namespace SystemsProjects

namespace Bytecode

/-- A machine that runs `code`, an array of `size` bytes, and is about to execute the
instruction at `ip`. -/
structure VM.At (vm : VM) (code : Nat → Byte) (size ip : Nat) (st : List CInt)
    (globals : Nat → CInt) (printed : List CInt) : Prop where
  code_eq : vm.code = code
  codeSize_eq : vm.codeSize = size
  ip_eq : vm.ip = ip
  sp_eq : vm.sp = st.length
  bound : st.length ≤ 256
  stack_eq : ∀ (i : Nat) (v : CInt), st[i]? = some v → vm.stack i = v
  globals_eq : vm.globals = globals
  printed_eq : vm.printed = printed
  running : vm.running = true

theorem stackIndex_ofNat {n : Nat} (h : n < 256) : stackIndex (n : Int) = .ok n := by
  rw [stackIndex, if_pos ⟨by omega, by omega⟩]
  rfl

theorem vmFetch_of_lt {vm : VM} (hip : vm.ip < vm.codeSize) :
    vmFetch vm = .ok (vm.code vm.ip, { vm with ip := vm.ip + 1 }) := by
  rw [vmFetch, vmCode, if_pos hip]
  rfl

theorem vmPop_of_pos {vm : VM} (hpos : 0 < vm.sp) (hle : vm.sp ≤ 256) :
    vmPop vm = .ok (vm.stack (vm.sp - 1).toNat, { vm with sp := vm.sp - 1 }) := by
  have hindex : stackIndex (vm.sp - 1) = .ok (vm.sp - 1).toNat := if_pos ⟨by omega, by omega⟩
  rw [vmPop, if_neg (by omega), hindex]
  rfl

theorem vmPush_of_lt {vm : VM} (hpos : 0 ≤ vm.sp) (hlt : vm.sp < 256) (v : CInt) :
    vmPush vm v = .ok { vm with
      stack := Function.update vm.stack vm.sp.toNat v, sp := vm.sp + 1 } := by
  have hindex : stackIndex vm.sp = .ok vm.sp.toNat := if_pos ⟨hpos, hlt⟩
  rw [vmPush, if_neg (by omega), hindex]
  rfl

/-- The step of a machine whose next instruction is known. -/
theorem vmStep_eq {vm : VM} {op : OpCode} (hip : vm.ip < vm.codeSize)
    (hop : vm.code vm.ip = op.toByte) : vmStep vm = vmExec op { vm with ip := vm.ip + 1 } := by
  rw [vmStep, vmFetch_of_lt hip, ok_bind, hop]
  dsimp only
  rw [OpCode.ofByte?_toByte]

section Rules

variable {vm : VM} {code : Nat → Byte} {size ip : Nat} {st : List CInt}
  {globals : Nat → CInt} {printed : List CInt}

/-- A machine straight after `vm_init`. -/
theorem vmInit_at (code : Nat → Byte) (size : Nat) :
    (vmInit code size).At code size 0 [] (fun _ => 0) [] where
  code_eq := rfl
  codeSize_eq := rfl
  ip_eq := rfl
  sp_eq := rfl
  bound := by decide
  stack_eq i v h := by simp at h
  globals_eq := rfl
  printed_eq := rfl
  running := rfl

/-- A push puts the number on top of the stack. -/
theorem VM.At.vmPush (h : vm.At code size ip st globals printed) (hst : st.length < 256)
    (v : CInt) :
    ∃ vm', Bytecode.vmPush vm v = .ok vm' ∧ vm'.At code size ip (st ++ [v]) globals printed := by
  refine ⟨{ vm with stack := Function.update vm.stack st.length v, sp := vm.sp + 1 }, ?_, ?_⟩
  · have hsp : ¬ (st.length : Int) = 256 := by omega
    rw [Bytecode.vmPush, h.sp_eq, if_neg hsp, stackIndex_ofNat hst]
    rfl
  · refine { h with sp_eq := ?_, bound := ?_, stack_eq := ?_ }
    · rw [h.sp_eq, List.length_append]
      rfl
    · rw [List.length_append]
      exact hst
    · intro i w hw
      -- below the new top the stack is what it was
      by_cases hi : i < st.length
      · rw [List.getElem?_append_left hi] at hw
        show Function.update vm.stack st.length v i = w
        rw [Function.update_of_ne (by omega)]
        exact h.stack_eq i w hw
      · rw [List.getElem?_append_right (by omega)] at hw
        obtain ⟨hlt, hv⟩ := List.getElem?_eq_some_iff.mp hw
        rw [List.length_singleton] at hlt
        obtain rfl : i = st.length := by omega
        rw [← hv]
        simp

theorem VM.At.vmPop {v : CInt} (h : vm.At code size ip (st ++ [v]) globals printed) :
    ∃ vm', Bytecode.vmPop vm = .ok (v, vm') ∧ vm'.At code size ip st globals printed := by
  have hlen : (st ++ [v]).length = st.length + 1 := by rw [List.length_append]; rfl
  have hbound := h.bound
  have hsp := h.sp_eq
  rw [hlen] at hbound hsp
  have hpred : vm.sp - 1 = st.length := by rw [hsp]; omega
  have htop : vm.stack st.length = v := h.stack_eq st.length v (by simp)
  refine ⟨{ vm with sp := vm.sp - 1 }, ?_, ?_⟩
  · rw [Bytecode.vmPop, if_neg (by omega), hpred, stackIndex_ofNat (by omega), ok_bind, htop]
    rfl
  · refine { h with sp_eq := hpred, bound := by omega, stack_eq := ?_ }
    intro i w hw
    obtain ⟨hi, _⟩ := List.getElem?_eq_some_iff.mp hw
    refine h.stack_eq i w ?_
    rwa [List.getElem?_append_left hi]

theorem VM.At.vmCode (h : vm.At code size ip st globals printed) (hip : ip < size) :
    Bytecode.vmCode vm = .ok (code ip) := by
  rw [Bytecode.vmCode, h.ip_eq, h.codeSize_eq, if_pos hip, h.code_eq]

theorem VM.At.jump (h : vm.At code size ip st globals printed) (target : Nat) :
    ({ vm with ip := target } : VM).At code size target st globals printed :=
  { h with ip_eq := rfl }

theorem VM.At.vmFetch (h : vm.At code size ip st globals printed) (hip : ip < size) :
    ∃ vm', Bytecode.vmFetch vm = .ok (code ip, vm') ∧
      vm'.At code size (ip + 1) st globals printed := by
  refine ⟨{ vm with ip := vm.ip + 1 }, ?_, ?_⟩
  · rw [Bytecode.vmFetch, h.vmCode hip]
    rfl
  · rw [h.ip_eq]
    exact h.jump (ip + 1)

/-- The instruction at `ip` is executed with `ip` already behind its byte. -/
theorem VM.At.vmStep (h : vm.At code size ip st globals printed) (hip : ip < size)
    {op : OpCode} (hop : code ip = op.toByte) :
    ∃ vm', Bytecode.vmStep vm = vmExec op vm' ∧
      vm'.At code size (ip + 1) st globals printed := by
  obtain ⟨vm', hfetch, h'⟩ := h.vmFetch hip
  refine ⟨vm', ?_, h'⟩
  rw [Bytecode.vmStep, hfetch, ok_bind, hop]
  dsimp only
  rw [OpCode.ofByte?_toByte]

/-- A step that succeeds. -/
theorem VM.At.reaches (h : vm.At code size ip st globals printed) {vm' : VM}
    (hstep : Bytecode.vmStep vm = .ok vm') : vmMachine.Reaches 1 vm vm' :=
  .one h.running hstep

/-- `OP_PUSH`: the operand, one byte, goes on the stack. -/
theorem VM.At.push (h : vm.At code size ip st globals printed) (hip : ip + 1 < size)
    (hst : st.length < 256) (hop : code ip = OpCode.opPush.toByte) :
    ∃ vm', vmMachine.Reaches 1 vm vm' ∧
      vm'.At code size (ip + 2) (st ++ [(code (ip + 1)).setWidth 32]) globals printed := by
  obtain ⟨vm₁, hstep, h₁⟩ := h.vmStep (by omega) hop
  obtain ⟨vm₂, hfetch, h₂⟩ := h₁.vmFetch hip
  obtain ⟨vm₃, hpush, h₃⟩ := h₂.vmPush hst ((code (ip + 1)).setWidth 32)
  refine ⟨vm₃, h.reaches ?_, h₃⟩
  rw [hstep, vmExec, hfetch, ok_bind]
  exact hpush

/-- `OP_LOAD`: the global in the slot of the operand goes on the stack. -/
theorem VM.At.load (h : vm.At code size ip st globals printed) (hip : ip + 1 < size)
    (hst : st.length < 256) (hop : code ip = OpCode.opLoad.toByte) :
    ∃ vm', vmMachine.Reaches 1 vm vm' ∧
      vm'.At code size (ip + 2) (st ++ [globals (code (ip + 1)).toNat]) globals printed := by
  obtain ⟨vm₁, hstep, h₁⟩ := h.vmStep (by omega) hop
  obtain ⟨vm₂, hfetch, h₂⟩ := h₁.vmFetch hip
  obtain ⟨vm₃, hpush, h₃⟩ := h₂.vmPush hst (vm₂.globals (code (ip + 1)).toNat)
  rw [h₂.globals_eq] at h₃
  refine ⟨vm₃, h.reaches ?_, h₃⟩
  rw [hstep, vmExec, hfetch, ok_bind]
  exact hpush

/-- `OP_STORE`: the number on top goes to the slot of the operand. -/
theorem VM.At.store {v : CInt} (h : vm.At code size ip (st ++ [v]) globals printed)
    (hip : ip + 1 < size) (hop : code ip = OpCode.opStore.toByte) :
    ∃ vm', vmMachine.Reaches 1 vm vm' ∧ vm'.At code size (ip + 2) st
      (Function.update globals (code (ip + 1)).toNat v) printed := by
  obtain ⟨vm₁, hstep, h₁⟩ := h.vmStep (by omega) hop
  obtain ⟨vm₂, hpop, h₂⟩ := h₁.vmPop
  obtain ⟨vm₃, hfetch, h₃⟩ := h₂.vmFetch hip
  refine ⟨{ vm₃ with
    globals := Function.update vm₃.globals (code (ip + 1)).toNat v }, h.reaches ?_, ?_⟩
  · rw [hstep, vmExec, hpop, ok_bind]
    dsimp only
    rw [hfetch, ok_bind]
    rfl
  · exact { h₃ with globals_eq := by rw [← h₃.globals_eq] }

theorem VM.At.print {v : CInt} (h : vm.At code size ip (st ++ [v]) globals printed)
    (hip : ip < size) (hop : code ip = OpCode.opPrint.toByte) :
    ∃ vm', vmMachine.Reaches 1 vm vm' ∧
      vm'.At code size (ip + 1) st globals (printed ++ [v]) := by
  obtain ⟨vm₁, hstep, h₁⟩ := h.vmStep hip hop
  obtain ⟨vm₂, hpop, h₂⟩ := h₁.vmPop
  refine ⟨{ vm₂ with printed := vm₂.printed ++ [v] }, h.reaches ?_, ?_⟩
  · rw [hstep, vmExec, hpop, ok_bind]
    rfl
  · exact { h₂ with printed_eq := by rw [← h₂.printed_eq] }

/-- `OP_JMP`: the machine goes on at the operand, which has one byte. -/
theorem VM.At.jmp (h : vm.At code size ip st globals printed) (hip : ip + 1 < size)
    (hop : code ip = OpCode.opJmp.toByte) :
    ∃ vm', vmMachine.Reaches 1 vm vm' ∧
      vm'.At code size (code (ip + 1)).toNat st globals printed := by
  obtain ⟨vm₁, hstep, h₁⟩ := h.vmStep (by omega) hop
  refine ⟨_, h.reaches ?_, h₁.jump (code (ip + 1)).toNat⟩
  rw [hstep, vmExec, h₁.vmCode hip, ok_bind]
  rfl

/-- `OP_JMP_IF_FALSE` goes on behind its operand, or at the operand's address. -/
theorem VM.At.jmpIfFalse {v : CInt} (h : vm.At code size ip (st ++ [v]) globals printed)
    (hip : ip + 1 < size) (hop : code ip = OpCode.opJmpIfFalse.toByte) :
    ∃ vm', vmMachine.Reaches 1 vm vm' ∧
      vm'.At code size (if v ≠ 0 then ip + 2 else (code (ip + 1)).toNat) st globals printed := by
  obtain ⟨vm₁, hstep, h₁⟩ := h.vmStep (by omega) hop
  obtain ⟨vm₂, hpop, h₂⟩ := h₁.vmPop
  by_cases hv : v ≠ 0
  · rw [if_pos hv]
    refine ⟨{ vm₂ with ip := vm₂.ip + 1 }, h.reaches ?_, ?_⟩
    · rw [hstep, vmExec, hpop, ok_bind]
      dsimp only
      rw [if_pos hv]
      rfl
    · rw [h₂.ip_eq]
      exact h₂.jump (ip + 2)
  · rw [if_neg hv]
    refine ⟨_, h.reaches ?_, h₂.jump (code (ip + 1)).toNat⟩
    rw [hstep, vmExec, hpop, ok_bind]
    dsimp only
    rw [if_neg hv, h₂.vmCode hip, ok_bind]
    rfl

/-- `OP_HALT`: the machine stops with everything where it is. -/
theorem VM.At.halt (h : vm.At code size ip st globals printed) (hip : ip < size)
    (hop : code ip = OpCode.opHalt.toByte) :
    ∃ vm', vmMachine.Reaches 1 vm vm' ∧ vm'.running = false ∧ vm'.sp = st.length ∧
      vm'.globals = globals ∧ vm'.printed = printed := by
  obtain ⟨vm₁, hstep, h₁⟩ := h.vmStep hip hop
  exact ⟨{ vm₁ with running := false }, h.reaches hstep, rfl, h₁.sp_eq, h₁.globals_eq,
    h₁.printed_eq⟩

/-- The arithmetic instructions apply their function to the two topmost values, in the
order in which they were pushed. -/
theorem VM.At.vmArith {f : CInt → CInt → Except VmStop CInt} {a b : CInt}
    (h : vm.At code size ip (st ++ [a] ++ [b]) globals printed) :
    (∀ v, f a b = .ok v → ∃ vm', Bytecode.vmArith f vm = .ok vm' ∧
      vm'.At code size ip (st ++ [v]) globals printed) ∧
    (∀ i, f a b = .error i → Bytecode.vmArith f vm = .error i) := by
  obtain ⟨vm₁, hpop₁, h₁⟩ := h.vmPop
  obtain ⟨vm₂, hpop₂, h₂⟩ := h₁.vmPop
  -- after two pops there is room for the result
  have hst : st.length < 256 := by
    have hbound := h₁.bound
    rw [List.length_append] at hbound
    exact hbound
  constructor
  · intro v hv
    obtain ⟨vm₃, hpush, h₃⟩ := h₂.vmPush hst v
    refine ⟨vm₃, ?_, h₃⟩
    rw [Bytecode.vmArith, hpop₁, ok_bind]
    dsimp only
    rw [hpop₂, ok_bind]
    dsimp only
    rw [hv, ok_bind]
    exact hpush
  · intro i hi
    rw [Bytecode.vmArith, hpop₁, ok_bind]
    dsimp only
    rw [hpop₂, ok_bind]
    dsimp only
    rw [hi, error_bind]

/-- The comparing instructions pop the later value first. -/
theorem VM.At.vmCompare {f : CInt → CInt → Bool} {a b : CInt}
    (h : vm.At code size ip (st ++ [a] ++ [b]) globals printed) :
    ∃ vm', Bytecode.vmCompare f vm = .ok vm' ∧
      vm'.At code size ip (st ++ [if f b a then 1 else 0]) globals printed := by
  obtain ⟨vm₁, hpop₁, h₁⟩ := h.vmPop
  obtain ⟨vm₂, hpop₂, h₂⟩ := h₁.vmPop
  have hst : st.length < 256 := by
    have hbound := h₁.bound
    rw [List.length_append] at hbound
    exact hbound
  obtain ⟨vm₃, hpush, h₃⟩ := h₂.vmPush hst (if f b a then 1 else 0)
  refine ⟨vm₃, ?_, h₃⟩
  rw [Bytecode.vmCompare, hpop₁, ok_bind]
  dsimp only
  rw [hpop₂, ok_bind]
  exact hpush

end Rules

end Bytecode

end SystemsProjects

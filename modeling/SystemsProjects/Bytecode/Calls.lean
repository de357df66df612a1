import Mathlib.Algebra.GroupWithZero.Nat
import SystemsProjects.Bytecode.VmSafety

/-!
# Calls and returns

`OP_CALL` puts the address behind it on the call stack and `OP_RET` takes it from there. The
address is a `size_t`, the call stack holds `int`s, so that an address from 2^31 on comes back
as another one.

- `vmStep_calls`: what one instruction does to the call stack, and to `ip` if it is `OP_RET`.
- `Pending`: the frame of a call that has not returned yet.
- `returnedTo_iff`: where a call ends, for any code in between.
- `farCode`: a program whose call does not return to its caller.

What a call can lose is known from one number, the address behind it: `viaInt` is what comes
back. The proof follows a single frame. As long as the depth of the call stack stays above that
of the call nothing touches the frame (`Pending.step`), and the first step that comes back to
the depth of the call is an `OP_RET` that reads it (`Pending.returns`).
-/

namespace SystemsProjects

namespace Bytecode

/-! ## One instruction -/

/-- The address that `OP_RET` goes to for the entry of the call stack that `OP_CALL` made out of
`i`: to `int` and back to `size_t`. -/
def viaInt (i : Nat) : Nat := ((BitVec.ofNat 32 i).signExtend 64).toNat

section

variable {vm vm' : VM} {as : List Access}

/-- Accesses to the operand stack and the globals leave the call stack alone. -/
theorem Trail.calls_eq (ht : Trail vm as vm')
    (has : ∀ k ∈ as.map Access.kind, k ≠ .push .cstack ∧ k ≠ .pop .cstack) :
    vm'.csp = vm.csp ∧ vm'.cstack = vm.cstack := by
  induction ht with
  | nil hs => exact ⟨congrFun hs.pointer_eq .cstack, congrFun hs.slots_eq .cstack⟩
  | @cons vm vm₁ vm₂ vm' a as hs ha _ ih =>
    rw [List.map_cons, List.forall_mem_cons] at has
    obtain ⟨⟨hpush, hpop⟩, hrest⟩ := has
    obtain ⟨hcsp, hcstack⟩ := ih hrest
    have hm := ha.moves
    have hpointer : vm₂.csp = vm₁.csp := by
      have h := hm.pointer_eq .cstack
      rw [Access.moved, if_neg hpush, if_neg hpop] at h
      exact h
    have hslots : vm₂.cstack = vm₁.cstack := hm.kept .cstack hpush
    rw [hcsp, hcstack, hpointer, hslots]
    exact ⟨congrFun hs.pointer_eq .cstack, congrFun hs.slots_eq .cstack⟩

/-- What an instruction does to the call stack. -/
inductive CallStep (vm vm' : VM) : Prop where
  | same (hop : OpCode.ofByte? (vm.code vm.ip) ≠ some .opCall) (hcsp : vm'.csp = vm.csp)
    (hcstack : vm'.cstack = vm.cstack)
  | call (hop : OpCode.ofByte? (vm.code vm.ip) = some .opCall) (hlo : 0 ≤ vm.csp)
    (hcsp : vm'.csp = vm.csp + 1)
    (hcstack : vm'.cstack =
      Function.update vm.cstack vm.csp.toNat (BitVec.ofNat 32 (vm.ip + 2)))
  | ret (hop : OpCode.ofByte? (vm.code vm.ip) = some .opRet) (hcsp : vm'.csp = vm.csp - 1)
    (hcstack : vm'.cstack = vm.cstack)
    (hip : vm'.ip = ((vm.cstack (vm.csp - 1).toNat).signExtend 64).toNat)

/-- A fetch reads the byte at `ip`, inside the code, and moves `ip` past it. -/
theorem vmFetch_eq_ok {b : Byte} (h : vmFetch vm = .ok (b, vm')) :
    vm.ip < vm.codeSize ∧ b = vm.code vm.ip ∧ vm' = { vm with ip := vm.ip + 1 } := by
  obtain ⟨c, hcode, heq⟩ := bind_eq_ok.mp h
  rw [vmCode] at hcode
  split at hcode
  · next hlt =>
    obtain rfl := Except.ok.inj hcode
    cases heq
    exact ⟨hlt, rfl, rfl⟩
  · cases hcode

/-- Every step leaves the call stack alone, or calls, or returns. The case of the other opcodes is
read off the accesses the step makes. -/
theorem vmStep_calls (h : vmStep vm = .ok vm') : CallStep vm vm' := by
  obtain ⟨⟨b, vm₁⟩, hfetch, hexec⟩ := bind_eq_ok.mp h
  obtain ⟨-, rfl, rfl⟩ := vmFetch_eq_ok hfetch
  dsimp only at hexec
  cases hop : OpCode.ofByte? (vm.code vm.ip) with
  | none =>
    rw [hop] at hexec
    cases hexec
  | some op =>
    rw [hop] at hexec
    dsimp only at hexec
    by_cases hcall : op = .opCall
    · subst hcall
      -- `OP_CALL`: the operand is fetched before `ip` is pushed
      obtain ⟨⟨dest, vm₂⟩, hdest, hexec⟩ := bind_eq_ok.mp hexec
      obtain ⟨-, -, rfl⟩ := vmFetch_eq_ok hdest
      obtain ⟨vm₃, hpush, hjump⟩ := bind_eq_ok.mp hexec
      obtain ⟨-, hlo, -, rfl⟩ := vmPushCs_eq_ok hpush
      obtain rfl := Except.ok.inj hjump
      exact .call hop hlo rfl rfl
    · by_cases hret : op = .opRet
      · subst hret
        -- `OP_RET`: what is popped becomes `ip`
        obtain ⟨⟨ip, vm₂⟩, hpop, hjump⟩ := bind_eq_ok.mp hexec
        obtain ⟨-, -, rfl, rfl⟩ := vmPopCs_eq_ok hpop
        obtain rfl := Except.ok.inj hjump
        exact .ret hop rfl rfl rfl
      · -- the other instructions make no access to the call stack
        obtain ⟨as, htrail, op', hop', has⟩ := vmStep_completes h
        obtain rfl : op = op' := Option.some.inj (hop.symm.trans hop')
        obtain ⟨hcsp, hcstack⟩ := htrail.calls_eq (by
          rw [has]
          cases op with
          | opCall => exact absurd rfl hcall
          | opRet => exact absurd rfl hret
          | _ => decide)
        exact .same (fun h => hcall (Option.some.inj (hop.symm.trans h))) hcsp hcstack

end

/-! ## A call and its return -/

/-- A call at depth `d` that has not returned: its frame is on the call stack, with the address
it was made at, above the frames `c` that were there before. -/
structure Pending (d : Int) (c : Nat → CInt) (ret : CInt) (vm : VM) : Prop where
  above : d < vm.csp
  frame : vm.cstack d.toNat = ret
  below : ∀ i : Nat, (i : Int) < d → vm.cstack i = c i

section Pending

variable {d : Int} {c : Nat → CInt} {ret : CInt} {vm vm' : VM}

/-- Behind a call its frame is pending, with the address behind the operand cut to 32 bits. -/
theorem pending_call (hop : OpCode.ofByte? (vm.code vm.ip) = some .opCall)
    (hstep : vmStep vm = .ok vm') :
    0 ≤ vm.csp ∧ Pending vm.csp vm.cstack (BitVec.ofNat 32 (vm.ip + 2)) vm' := by
  cases vmStep_calls hstep with
  | same hother _ _ => exact absurd hop hother
  | call _ hlo hcsp hcstack =>
    refine ⟨hlo, by omega, ?_, fun i hi => ?_⟩
    · rw [hcstack, Function.update_self]
    · rw [hcstack, Function.update_of_ne (by omega)]
  | ret hret _ _ _ =>
    rw [hop] at hret
    cases hret

/-- A step that does not come back to depth `d` keeps the frame. -/
theorem Pending.step (h : Pending d c ret vm) (hd : 0 ≤ d) (hstep : vmStep vm = .ok vm')
    (hne : vm'.csp ≠ d) : Pending d c ret vm' := by
  obtain ⟨habove, hframe, hbelow⟩ := h
  cases vmStep_calls hstep with
  | same _ hcsp hcstack => exact ⟨by omega, hcstack ▸ hframe, fun i hi => hcstack ▸ hbelow i hi⟩
  | call _ hlo hcsp hcstack =>
    -- the new frame is above the one at depth `d`
    refine ⟨by omega, ?_, fun i hi => ?_⟩
    · rw [hcstack, Function.update_of_ne (by omega)]
      exact hframe
    · rw [hcstack, Function.update_of_ne (by omega)]
      exact hbelow i hi
  | ret _ hcsp hcstack _ =>
    exact ⟨by omega, hcstack ▸ hframe, fun i hi => hcstack ▸ hbelow i hi⟩

/-- A step that comes back to depth `d` is the return of the call. -/
theorem Pending.returns (h : Pending d c ret vm) (hstep : vmStep vm = .ok vm')
    (hd : vm'.csp = d) :
    OpCode.ofByte? (vm.code vm.ip) = some .opRet ∧ vm'.ip = (ret.signExtend 64).toNat ∧
      ∀ i : Nat, (i : Int) < d → vm'.cstack i = c i := by
  obtain ⟨habove, hframe, hbelow⟩ := h
  cases vmStep_calls hstep with
  | same _ hcsp _ => omega
  | call _ _ hcsp _ => omega
  | ret hop hcsp hcstack hip =>
    have hdepth : vm.csp - 1 = d := by omega
    rw [hdepth, hframe] at hip
    exact ⟨hop, hip, fun i hi => hcstack ▸ hbelow i hi⟩

end Pending

/-- The call made in `vm` has returned to its caller: the step in `last`, which led to `vm'`,
was an `OP_RET`, the next instruction is the one behind the call, and the call stack is what it
was. -/
structure ReturnedTo (vm last vm' : VM) : Prop where
  ret : OpCode.ofByte? (last.code last.ip) = some .opRet
  ip : vm'.ip = vm.ip + 2
  depth : vm'.csp = vm.csp
  frames : ∀ i : Nat, (i : Int) < vm.csp → vm'.cstack i = vm.cstack i

/-- Which addresses are the same after the way over `int`. -/
theorem viaInt_eq_iff (i : Nat) :
    viaInt i = i ↔ i < 2 ^ 31 ∨ (2 ^ 64 - 2 ^ 31 ≤ i ∧ i < 2 ^ 64) := by
  have hwidth : (BitVec.ofNat 32 i).toNat = i % 2 ^ 32 := BitVec.toNat_ofNat i 32
  have hlt : i % 2 ^ 32 < 2 ^ 32 := Nat.mod_lt _ (by decide)
  rw [viaInt, BitVec.toNat_signExtend, BitVec.toNat_setWidth, BitVec.msb_eq_decide, hwidth,
    Nat.mod_eq_of_lt (by omega)]
  -- the upper half of the `int`s is the negative one
  by_cases hneg : 2 ^ 31 ≤ i % 2 ^ 32
  · rw [if_pos (decide_eq_true hneg)]
    omega
  · rw [if_neg (by simp only [decide_eq_true_eq]; exact hneg)]
    omega

/-- Whatever happens in between: at the first moment after a call at which the depth is again
what it was, the call has returned to its caller, exactly when the address behind it survives
the way over `int`. -/
theorem returnedTo_iff {vm vm₁ last vm' : VM}
    (hop : OpCode.ofByte? (vm.code vm.ip) = some .opCall) (hstep : vmStep vm = .ok vm₁)
    (hfirst : vmMachine.FirstAt (fun s => s.csp = vm.csp) vm₁ last vm') :
    ReturnedTo vm last vm' ↔
      vm.ip + 2 < 2 ^ 31 ∨ (2 ^ 64 - 2 ^ 31 ≤ vm.ip + 2 ∧ vm.ip + 2 < 2 ^ 64) := by
  obtain ⟨hlo, hpending⟩ := pending_call hop hstep
  obtain ⟨hlast, -, hret, hdepth⟩ := hfirst.invariant hpending
    fun s s₁ hs _ hs₁ hne => hs.step hlo hs₁ hne
  obtain ⟨hopret, hip, hframes⟩ := hlast.returns hret hdepth
  rw [← viaInt_eq_iff]
  constructor
  · intro h
    exact hip.symm.trans h.ip
  · intro h
    exact ⟨hopret, hip.trans h, hdepth, hframes⟩

/-! ## Examples -/

/-- `OP_CALL 3`, `OP_HALT`, `OP_RET` -/
def nearCode (i : Nat) : Byte := [0x0F, 3, 0xFF, 0x1F].getD i 0xFF

theorem returnedTo_nearCode : ∃ vm₁ last vm',
    vmMachine.FirstAt (fun s => s.csp = 0) vm₁ last vm' ∧
      ReturnedTo (vmInit nearCode 4) last vm' := by
  let vm₁ : VM := { vmInit nearCode 4 with
    ip := 3, cstack := Function.update (fun _ => 0) 0 2, csp := 1 }
  let vm' : VM := { vm₁ with ip := 2, csp := 0 }
  have hfirst : vmMachine.FirstAt (fun s => s.csp = 0) vm₁ vm₁ vm' := .last (by decide) rfl rfl rfl
  exact ⟨vm₁, vm₁, vm', hfirst, (returnedTo_iff rfl rfl hfirst).mpr (.inl (by decide))⟩

/-- A jump over `OP_RET`, then `OP_LOAD 0` and `OP_POP` over and over, and `OP_CALL 2` as the
last instruction of an array of 2 GiB. -/
def farCode (i : Nat) : Byte :=
  if i = 0 then OpCode.opJmp.toByte
  else if i = 1 then 3
  else if i = 2 then OpCode.opRet.toByte
  else if i = 2147483646 then OpCode.opCall.toByte
  else if i = 2147483647 then 2
  else if i % 3 = 0 then OpCode.opLoad.toByte
  else if i % 3 = 1 then 0
  else OpCode.opPop.toByte

/-- The machine at `n`, with its stacks as they were at the start. -/
def farAt (n : Nat) : VM := { vmInit farCode 2147483648 with ip := n }

/-- One round of `OP_LOAD 0` and `OP_POP`. -/
theorem far_round {n : Nat} (hmod : n % 3 = 0) (hlo : 3 ≤ n) (hhi : n < 2147483646) :
    vmMachine.Reaches 2 (farAt n) (farAt (n + 3)) := by
  have hload : farCode n = OpCode.opLoad.toByte := by
    rw [farCode, if_neg (by omega), if_neg (by omega), if_neg (by omega), if_neg (by omega),
      if_neg (by omega), if_pos hmod]
  have hpop : farCode (n + 2) = OpCode.opPop.toByte := by
    rw [farCode, if_neg (by omega), if_neg (by omega), if_neg (by omega), if_neg (by omega),
      if_neg (by omega), if_neg (by omega), if_neg (by omega)]
  let vm₁ : VM := { farAt (n + 2) with sp := 1 }
  have hstep₁ : vmStep (farAt n) = .ok vm₁ := by
    rw [@vmStep_eq _ .opLoad (by show n < 2147483648; omega) hload, vmExec,
      vmFetch_of_lt (by show n + 1 < 2147483648; omega), ok_bind]
    show vmPush (farAt (n + 2)) 0 = _
    rw [vmPush_of_lt (Int.le_refl 0) (show (0 : Int) < 256 by decide)]
    -- the slot had the value that is pushed
    have hsame : Function.update (fun _ : Nat => (0 : CInt)) 0 0 = fun _ => 0 :=
      Function.update_eq_self 0 _
    exact congrArg (fun st => Except.ok { vm₁ with stack := st }) hsame
  have hstep₂ : vmStep vm₁ = .ok (farAt (n + 3)) := by
    rw [@vmStep_eq _ .opPop (by show n + 2 < 2147483648; omega) hpop, vmExec,
      vmPop_of_pos (show (0 : Int) < 1 by decide) (show (1 : Int) ≤ 256 by decide), ok_bind]
    rfl
  exact .step rfl hstep₁ (.one rfl hstep₂)

/-- `k` rounds, up to the call at the end of the array. -/
theorem far_rounds (k : Nat) (hk : 3 * k + 3 ≤ 2147483646) :
    ∃ m, vmMachine.Reaches m (farAt 3) (farAt (3 * k + 3)) := by
  induction k with
  | zero => exact ⟨0, .refl _⟩
  | succ k ih =>
    obtain ⟨m, hm⟩ := ih (by omega)
    have hround := far_round (n := 3 * k + 3) (by omega) (by omega) (by omega)
    exact ⟨m + 2, hm.trans hround⟩

/-- The run comes to the call at 2147483646. The address behind it is 2147483648, the call comes
back at 18446744071562067968. -/
theorem not_returnedTo_farCode : ∃ n vm vm₁ last vm',
    vmMachine.Reaches n (vmInit farCode 2147483648) vm ∧ vm.ip = 2147483646 ∧
      OpCode.ofByte? (vm.code vm.ip) = some .opCall ∧ vmStep vm = .ok vm₁ ∧
      vmMachine.FirstAt (fun s => s.csp = vm.csp) vm₁ last vm' ∧
      vm'.ip = 18446744071562067968 ∧ ¬ ReturnedTo vm last vm' := by
  have hjump : vmMachine.Reaches 1 (vmInit farCode 2147483648) (farAt 3) := .one rfl rfl
  obtain ⟨m, hm⟩ := far_rounds 715827881 (by decide)
  let vm₁ : VM := { farAt 2 with
    cstack := Function.update (fun _ => 0) 0 (BitVec.ofNat 32 2147483648), csp := 1 }
  let vm' : VM := { vm₁ with ip := 18446744071562067968, csp := 0 }
  have hop : OpCode.ofByte? ((farAt 2147483646).code (farAt 2147483646).ip) = some .opCall := by
    decide
  have hcall : vmStep (farAt 2147483646) = .ok vm₁ := rfl
  have hret : vmStep vm₁ = .ok vm' := rfl
  refine ⟨_, farAt 2147483646, vm₁, vm₁, vm', hjump.trans hm, rfl, hop, hcall,
    .last (by decide) rfl hret rfl, rfl, fun h => ?_⟩
  exact absurd h.ip (by decide)

end Bytecode

end SystemsProjects

import SystemsProjects.Bytecode.VmRules

/-!
# The machine on any bytecode

What the instructions do to the two stacks and to the globals, as a list of accesses.

- `OpCode.accesses`: the accesses of each instruction, in order.
- `Trail vm as vm'`: the accesses `as` lead from `vm` to `vm'`. `Begins vm as vm'`: they are
  the first ones, or all, of the instruction at `ip`. An instruction that stops the machine
  half-way has made the first ones (`vmStep_begins`).
- `vm_in_range`: over any run, on any code, the pointers and all indices stay in range, what
  is popped is what was pushed last at that depth, and an instruction leaves everything below
  the lowest value of the pointer alone.

The instructions are taken apart once, in `vmExec_does`: what an instruction does is the row of
accesses that a table gives for it, and the cases differ in this row only. Everything else is
about one access at a time. `Sound` is what is kept along the history, for both stacks at once;
it is carried over silent parts, over one access, over an instruction and over a run, in this
order.
-/

namespace SystemsProjects

namespace Bytecode

/-! ## Accesses -/

/-- The two stacks of the machine. -/
inductive StackName where
  | stack
  | cstack
  deriving DecidableEq

/-- What kind of access is made. -/
inductive AccessKind where
  | push (k : StackName)
  | pop (k : StackName)
  | load
  | store
  deriving DecidableEq

/-- An access to a slot, with the value that is written or read. -/
structure Access where
  kind : AccessKind
  slot : Int
  value : CInt

/-- `sp` or `csp`. -/
def VM.pointer (vm : VM) : StackName → Int
  | .stack => vm.sp
  | .cstack => vm.csp

/-- `stack` or `cstack`. -/
def VM.slots (vm : VM) : StackName → Nat → CInt
  | .stack => vm.stack
  | .cstack => vm.cstack

/-- `sp` and `csp` are in range. -/
def VM.InRange (vm : VM) : Prop := ∀ k, 0 ≤ vm.pointer k ∧ vm.pointer k ≤ 256

/-- The accesses of an instruction, in order. -/
def OpCode.accesses : OpCode → List AccessKind
  | .opPush => [.push .stack]
  | .opPop => [.pop .stack]
  | .opAdd => [.pop .stack, .pop .stack, .push .stack]
  | .opSub => [.pop .stack, .pop .stack, .push .stack]
  | .opMul => [.pop .stack, .pop .stack, .push .stack]
  | .opDiv => [.pop .stack, .pop .stack, .push .stack]
  | .opEq => [.pop .stack, .pop .stack, .push .stack]
  | .opGt => [.pop .stack, .pop .stack, .push .stack]
  | .opLt => [.pop .stack, .pop .stack, .push .stack]
  | .opJmp => []
  | .opJmpIfFalse => [.pop .stack]
  | .opStore => [.pop .stack, .store]
  | .opLoad => [.load, .push .stack]
  | .opCall => [.push .cstack]
  | .opRet => [.pop .cstack]
  | .opPrint => [.pop .stack]
  | .opHalt => []

/-- One access. -/
inductive Accesses : VM → Access → VM → Prop where
  | push {vm vm' : VM} {v : CInt} (h : vmPush vm v = .ok vm') :
    Accesses vm ⟨.push .stack, vm.sp, v⟩ vm'
  | pop {vm vm' : VM} {v : CInt} (h : vmPop vm = .ok (v, vm')) :
    Accesses vm ⟨.pop .stack, vm.sp - 1, v⟩ vm'
  | pushCs {vm vm' : VM} {v : CInt} (h : vmPushCs vm v = .ok vm') :
    Accesses vm ⟨.push .cstack, vm.csp, v⟩ vm'
  | popCs {vm vm' : VM} {v : CInt} (h : vmPopCs vm = .ok (v, vm')) :
    Accesses vm ⟨.pop .cstack, vm.csp - 1, v⟩ vm'
  | load {vm : VM} (slot : Byte) :
    Accesses vm ⟨.load, slot.toNat, vm.globals slot.toNat⟩ vm
  | store {vm : VM} (slot : Byte) (v : CInt) :
    Accesses vm ⟨.store, slot.toNat, v⟩
      { vm with globals := Function.update vm.globals slot.toNat v }

/-- The stacks and the globals are the same, and so is the code. -/
structure Silent (vm vm' : VM) : Prop where
  pointer_eq : vm'.pointer = vm.pointer
  slots_eq : vm'.slots = vm.slots
  globals_eq : vm'.globals = vm.globals
  code_eq : vm'.code = vm.code

/-- The accesses lead from one state to the other. -/
inductive Trail : VM → List Access → VM → Prop where
  | nil {vm vm' : VM} (h : Silent vm vm') : Trail vm [] vm'
  | cons {vm vm₁ vm₂ vm' : VM} {a : Access} {as : List Access} (h : Silent vm vm₁)
    (ha : Accesses vm₁ a vm₂) (hrest : Trail vm₂ as vm') : Trail vm (a :: as) vm'

/-- The accesses are the first ones of the instruction at `ip`. -/
def Begins (vm : VM) (as : List Access) (vm' : VM) : Prop :=
  Trail vm as vm' ∧
    ∃ op, OpCode.ofByte? (vm.code vm.ip) = some op ∧ as.map Access.kind <+: op.accesses

/-- The accesses are all of the instruction at `ip`. -/
def Completes (vm : VM) (as : List Access) (vm' : VM) : Prop :=
  Trail vm as vm' ∧
    ∃ op, OpCode.ofByte? (vm.code vm.ip) = some op ∧ as.map Access.kind = op.accesses

section

variable {vm vm₁ vm' : VM} {a : Access} {as bs hist : List Access} {ks : List AccessKind}
  {v : CInt} {k : StackName}

theorem Completes.begins (h : Completes vm as vm') : Begins vm as vm' := by
  obtain ⟨htrail, op, hop, has⟩ := h
  exact ⟨htrail, op, hop, has ▸ List.prefix_refl _⟩

theorem Silent.refl (vm : VM) : Silent vm vm := ⟨rfl, rfl, rfl, rfl⟩

theorem silent_ip (vm : VM) (ip : Nat) : Silent vm { vm with ip := ip } := ⟨rfl, rfl, rfl, rfl⟩

/-- Parts without an access, one after the other. -/
theorem Silent.trans (h : Silent vm vm₁) (h' : Silent vm₁ vm') : Silent vm vm' where
  pointer_eq := h'.pointer_eq.trans h.pointer_eq
  slots_eq := h'.slots_eq.trans h.slots_eq
  globals_eq := h'.globals_eq.trans h.globals_eq
  code_eq := h'.code_eq.trans h.code_eq

/-- A part without an access in front of a trail. -/
theorem Trail.silent_left (h : Silent vm vm₁) (htrail : Trail vm₁ as vm') : Trail vm as vm' := by
  cases htrail with
  | nil h' => exact .nil (h.trans h')
  | cons h' ha hrest => exact .cons (h.trans h') ha hrest

/-! ## What an instruction does -/

/-- The outcome of the rest of an instruction that still has to make the accesses `ks`: all of
them when it succeeds, the first ones of them when it stops. It leaves an array only when a
pointer has left its range before. -/
def Does (ks : List AccessKind) (vm : VM) (r : Except VmStop VM) : Prop :=
  (∀ vm', r = .ok vm' → ∃ as, Trail vm as vm' ∧ as.map Access.kind = ks) ∧
    ∀ e, r = .error e → ∃ as vm', Trail vm as vm' ∧ as.map Access.kind <+: ks ∧
      ∀ i, e = .stackOutOfBounds i → ¬ vm'.InRange

/-- No access, when the stacks and their pointers stay. -/
theorem Does.ok (h : Silent vm vm') : Does [] vm (.ok vm') := by
  constructor
  · intro vm₂ heq
    obtain rfl := Except.ok.inj heq
    exact ⟨[], .nil h, rfl⟩
  · intro e heq
    cases heq

/-- A fault makes no access; it refuses an index only when a pointer has left its range. -/
theorem Does.error {e : VmStop} (ks : List AccessKind) (vm : VM)
    (he : ∀ i, e = .stackOutOfBounds i → ¬ vm.InRange) : Does ks vm (.error e) := by
  constructor
  · intro vm' heq
    cases heq
  · intro e' heq
    obtain rfl := Except.error.inj heq
    exact ⟨[], vm, .nil (.refl vm), List.nil_prefix, he⟩

/-- An access, and then the rest. -/
theorem Does.cons {r : Except VmStop VM} (ha : Accesses vm a vm₁) (h : Does ks vm₁ r) :
    Does (a.kind :: ks) vm r := by
  constructor
  · intro vm' heq
    obtain ⟨as, htrail, has⟩ := h.1 vm' heq
    exact ⟨a :: as, .cons (.refl vm) ha htrail, by rw [List.map_cons, has]⟩
  · intro e heq
    obtain ⟨as, vm', htrail, has, hindex⟩ := h.2 e heq
    refine ⟨a :: as, vm', .cons (.refl vm) ha htrail, ?_, hindex⟩
    rw [List.map_cons]
    exact (List.prefix_cons_inj _).mpr has

theorem Does.silent {r : Except VmStop VM} (hs : Silent vm vm₁) (h : Does ks vm₁ r) :
    Does ks vm r := by
  constructor
  · intro vm' heq
    obtain ⟨as, htrail, has⟩ := h.1 vm' heq
    exact ⟨as, htrail.silent_left hs, has⟩
  · intro e heq
    obtain ⟨as, vm', htrail, has, hindex⟩ := h.2 e heq
    exact ⟨as, vm', htrail.silent_left hs, has, hindex⟩

/-- An index that is accepted is inside the array. -/
theorem stackIndex_eq_ok {i : Int} {j : Nat} (h : stackIndex i = .ok j) :
    0 ≤ i ∧ i < 256 ∧ j = i.toNat := by
  unfold stackIndex at h
  split at h
  · next hi => exact ⟨hi.1, hi.2, (Except.ok.inj h).symm⟩
  · cases h

theorem stackIndex_eq_error {i : Int} {e : VmStop} (h : stackIndex i = .error e) :
    ¬ (0 ≤ i ∧ i < 256) := by
  unfold stackIndex at h
  split at h
  · cases h
  · next hi => exact hi

/-- A push refuses an index only when the pointer has left its range. -/
theorem vmPush_eq_error {e : VmStop} (h : vmPush vm v = .error e) :
    ∀ i, e = .stackOutOfBounds i → ¬ vm.InRange := by
  rintro i rfl hrange
  obtain ⟨hlo, hhi⟩ := hrange .stack
  have hlo : 0 ≤ vm.sp := hlo
  have hhi : vm.sp ≤ 256 := hhi
  unfold vmPush at h
  split at h
  · cases h
  · cases hindex : stackIndex vm.sp with
    | error e => exact stackIndex_eq_error hindex (by omega)
    | ok j =>
      rw [hindex] at h
      cases h

theorem vmPop_eq_error {e : VmStop} (h : vmPop vm = .error e) :
    ∀ i, e = .stackOutOfBounds i → ¬ vm.InRange := by
  rintro i rfl hrange
  obtain ⟨-, hhi⟩ := hrange .stack
  have hhi : vm.sp ≤ 256 := hhi
  unfold vmPop at h
  split at h
  · cases h
  · cases hindex : stackIndex (vm.sp - 1) with
    | error e => exact stackIndex_eq_error hindex (by omega)
    | ok j =>
      rw [hindex] at h
      cases h

theorem vmPushCs_eq_error {e : VmStop} (h : vmPushCs vm v = .error e) :
    ∀ i, e = .stackOutOfBounds i → ¬ vm.InRange := by
  rintro i rfl hrange
  obtain ⟨hlo, hhi⟩ := hrange .cstack
  have hlo : 0 ≤ vm.csp := hlo
  have hhi : vm.csp ≤ 256 := hhi
  unfold vmPushCs at h
  split at h
  · cases h
  · cases hindex : stackIndex vm.csp with
    | error e => exact stackIndex_eq_error hindex (by omega)
    | ok j =>
      rw [hindex] at h
      cases h

theorem vmPopCs_eq_error {e : VmStop} (h : vmPopCs vm = .error e) :
    ∀ i, e = .stackOutOfBounds i → ¬ vm.InRange := by
  rintro i rfl hrange
  obtain ⟨-, hhi⟩ := hrange .cstack
  have hhi : vm.csp ≤ 256 := hhi
  unfold vmPopCs at h
  split at h
  · cases h
  · cases hindex : stackIndex (vm.csp - 1) with
    | error e => exact stackIndex_eq_error hindex (by omega)
    | ok j =>
      rw [hindex] at h
      cases h

/-- The last access of an instruction is a push. -/
theorem Does.push (vm : VM) (v : CInt) : Does [.push .stack] vm (vmPush vm v) := by
  cases hpush : vmPush vm v with
  | error e => exact .error _ vm (vmPush_eq_error hpush)
  | ok vm' => exact .cons (.push hpush) (.ok (.refl vm'))

theorem Does.pop {f : CInt × VM → Except VmStop VM}
    (h : ∀ v vm', Does ks vm' (f (v, vm'))) : Does (.pop .stack :: ks) vm (vmPop vm >>= f) := by
  cases hpop : vmPop vm with
  | error e => exact .error _ vm (vmPop_eq_error hpop)
  | ok r => exact .cons (.pop hpop) (h r.1 r.2)

/-- A pop of the call stack, and what is done with the address. -/
theorem Does.popCs {f : CInt × VM → Except VmStop VM}
    (h : ∀ v vm', Does ks vm' (f (v, vm'))) : Does (.pop .cstack :: ks) vm (vmPopCs vm >>= f) := by
  cases hpop : vmPopCs vm with
  | error e => exact .error _ vm (vmPopCs_eq_error hpop)
  | ok r => exact .cons (.popCs hpop) (h r.1 r.2)

/-- A push on the call stack, and what is done behind it. -/
theorem Does.pushCs {f : VM → Except VmStop VM} (h : ∀ vm', Does ks vm' (f vm')) :
    Does (.push .cstack :: ks) vm (vmPushCs vm v >>= f) := by
  cases hpush : vmPushCs vm v with
  | error e => exact .error _ vm (vmPushCs_eq_error hpush)
  | ok vm' => exact .cons (.pushCs hpush) (h vm')

/-- Fetching a byte touches no stack. -/
theorem Does.fetch {f : Byte × VM → Except VmStop VM}
    (h : ∀ b vm', Does ks vm' (f (b, vm'))) : Does ks vm (vmFetch vm >>= f) := by
  unfold vmFetch vmCode
  split
  · exact .silent (show Silent vm { vm with ip := vm.ip + 1 } from ⟨rfl, rfl, rfl, rfl⟩) (h _ _)
  · exact .error _ vm nofun

theorem Does.code {f : Byte → Except VmStop VM} (h : ∀ b, Does ks vm (f b)) :
    Does ks vm (vmCode vm >>= f) := by
  unfold vmCode
  split
  · exact h _
  · exact .error _ vm nofun

/-- The arithmetic instructions: two pops and a push. -/
theorem vmArith_does {f : CInt → CInt → Except VmStop CInt}
    (hf : ∀ a b i, f a b ≠ .error (.stackOutOfBounds i)) (vm : VM) :
    Does [.pop .stack, .pop .stack, .push .stack] vm (vmArith f vm) := by
  refine .pop fun b vm₁ => .pop fun a vm₂ => ?_
  show Does _ vm₂ (f a b >>= fun v => vmPush vm₂ v)
  cases hresult : f a b with
  | error e =>
    refine .error _ vm₂ fun i he => absurd hresult ?_
    rw [he]
    exact hf a b i
  | ok v => exact .push vm₂ v

theorem vmDiv_ne_error (a b : CInt) (i : Int) : vmDiv a b ≠ .error (.stackOutOfBounds i) := by
  unfold vmDiv
  split
  · exact nofun
  · split <;> exact nofun

theorem vmCompare_does (f : CInt → CInt → Bool) (vm : VM) :
    Does [.pop .stack, .pop .stack, .push .stack] vm (vmCompare f vm) :=
  .pop fun _ _ => .pop fun _ vm₂ => .push vm₂ _

/-- Every instruction makes the accesses of its row in the table. -/
theorem vmExec_does (op : OpCode) (vm : VM) : Does op.accesses vm (vmExec op vm) := by
  cases op with
  | opPush => exact .fetch fun b vm₁ => .push vm₁ _
  | opPop => exact .pop fun _ vm₁ => .ok (.refl vm₁)
  | opAdd => exact vmArith_does (f := fun a b => .ok (a + b)) (fun _ _ _ => nofun) vm
  | opSub => exact vmArith_does (f := fun a b => .ok (a - b)) (fun _ _ _ => nofun) vm
  | opMul => exact vmArith_does (f := fun a b => .ok (a * b)) (fun _ _ _ => nofun) vm
  | opDiv => exact vmArith_does vmDiv_ne_error vm
  | opEq => exact vmCompare_does (fun a b => a = b) vm
  | opGt => exact vmCompare_does (fun a b => a.slt b) vm
  | opLt => exact vmCompare_does (fun a b => b.slt a) vm
  | opJmp => exact .code fun b => .ok ⟨rfl, rfl, rfl, rfl⟩
  | opJmpIfFalse =>
    -- a jump is no access, and neither is the byte that is skipped
    refine .pop fun cond vm₁ => ?_
    by_cases hcond : cond ≠ 0
    · dsimp only
      rw [if_pos hcond]
      exact .ok ⟨rfl, rfl, rfl, rfl⟩
    · dsimp only
      rw [if_neg hcond]
      exact .code fun b => .ok ⟨rfl, rfl, rfl, rfl⟩
  | opStore =>
    refine .pop fun val vm₁ => .fetch fun slot vm₂ => ?_
    exact .cons (.store slot val) (.ok (.refl _))
  | opLoad => exact .fetch fun slot vm₁ => .cons (.load slot) (.push vm₁ _)
  | opCall => exact .fetch fun dest vm₁ => .pushCs fun vm₂ => .ok ⟨rfl, rfl, rfl, rfl⟩
  | opRet => exact .popCs fun ip vm₁ => .ok ⟨rfl, rfl, rfl, rfl⟩
  | opPrint => exact .pop fun value vm₁ => .ok ⟨rfl, rfl, rfl, rfl⟩
  | opHalt => exact .ok ⟨rfl, rfl, rfl, rfl⟩

/-- One round of the loop is the instruction at `ip`, if there is one. -/
theorem vmStep_cases (vm : VM) :
    (∃ e, vmStep vm = .error e ∧ ∀ i, e ≠ .stackOutOfBounds i) ∨
      ∃ op, OpCode.ofByte? (vm.code vm.ip) = some op ∧
        vmStep vm = vmExec op { vm with ip := vm.ip + 1 } := by
  by_cases hip : vm.ip < vm.codeSize
  · -- inside the code a byte is fetched, and it may be no opcode
    have hfetch : vmFetch vm = .ok (vm.code vm.ip, { vm with ip := vm.ip + 1 }) := by
      unfold vmFetch vmCode
      rw [if_pos hip]
      rfl
    rw [vmStep, hfetch, ok_bind]
    cases hop : OpCode.ofByte? (vm.code vm.ip) with
    | some op =>
      refine .inr ⟨op, rfl, ?_⟩
      dsimp only
      rw [hop]
    | none =>
      refine .inl ⟨.unknownOpcode (vm.code vm.ip), ?_, fun _ => VmStop.noConfusion⟩
      dsimp only
      rw [hop]
  · refine .inl ⟨.codeOutOfBounds vm.ip, ?_, fun _ => VmStop.noConfusion⟩
    unfold vmStep vmFetch vmCode
    rw [if_neg hip]
    rfl

/-- A round that succeeds makes the accesses of its instruction. -/
theorem vmStep_completes (h : vmStep vm = .ok vm') : ∃ as, Completes vm as vm' := by
  rcases vmStep_cases vm with ⟨e, he, -⟩ | ⟨op, hop, hexec⟩
  · rw [he] at h
    cases h
  · rw [hexec] at h
    obtain ⟨as, htrail, has⟩ := (vmExec_does op _).1 vm' h
    exact ⟨as, htrail.silent_left (silent_ip vm _), op, hop, has⟩

/-- A round leaves an array only when a pointer has left its range before. -/
theorem vmStep_begins {i : Int} (h : vmStep vm = .error (.stackOutOfBounds i)) :
    ∃ as vm', Begins vm as vm' ∧ ¬ vm'.InRange := by
  rcases vmStep_cases vm with ⟨e, he, hne⟩ | ⟨op, hop, hexec⟩
  · rw [he] at h
    exact absurd (Except.error.inj h) (hne i)
  · rw [hexec] at h
    obtain ⟨as, vm', htrail, has, hrange⟩ := (vmExec_does op _).2 _ h
    exact ⟨as, vm', ⟨htrail.silent_left (silent_ip vm _), op, hop, has⟩, hrange i rfl⟩

end

/-! ## What is kept -/

/-- The value of the last push to a slot. -/
def lastPushed (k : StackName) (slot : Int) : List Access → Option CInt
  | [] => none
  | a :: as =>
    (lastPushed k slot as).or (if a.kind = .push k ∧ a.slot = slot then some a.value else none)

/-- Every pop of a history gives the value of the last push to its slot. -/
def PopsLast (hist : List Access) : Prop :=
  ∀ before a after, hist = before ++ a :: after → ∀ k, a.kind = .pop k →
    lastPushed k a.slot before = some a.value

/-- The pointer `k` after an access. -/
def Access.moved (k : StackName) (a : Access) (p : Int) : Int :=
  if a.kind = .push k then p + 1 else if a.kind = .pop k then p - 1 else p

/-- The lowest value of the pointer `k` along the accesses, from the value `p`. -/
def lowest (k : StackName) : Int → List Access → Int
  | p, [] => p
  | p, a :: as => min p (lowest k (a.moved k p) as)

/-- What holds after the accesses `hist`, the first ones since `vm_init`. -/
structure Sound (hist : List Access) (vm : VM) : Prop where
  range : vm.InRange
  slots : ∀ a ∈ hist, 0 ≤ a.slot ∧ a.slot < 256
  pops : PopsLast hist
  held : ∀ k i, 0 ≤ i → i < vm.pointer k → lastPushed k i hist = some (vm.slots k i.toNat)

section

variable {vm vm₁ vm' : VM} {a : Access} {as bs hist : List Access} {k : StackName}

/-- The last push of a slot, with one access more. -/
theorem lastPushed_concat (k : StackName) (slot : Int) (as : List Access) (a : Access) :
    lastPushed k slot (as ++ [a]) =
      if a.kind = .push k ∧ a.slot = slot then some a.value else lastPushed k slot as := by
  induction as with
  | nil =>
    simp only [List.nil_append, lastPushed, Option.none_or]
  | cons b as ih =>
    rw [List.cons_append, lastPushed, ih]
    split
    · rw [Option.some_or]
    · rw [lastPushed]

theorem PopsLast.concat (h : PopsLast hist)
    (ha : ∀ k, a.kind = .pop k → lastPushed k a.slot hist = some a.value) :
    PopsLast (hist ++ [a]) := by
  intro before b after heq k hb
  rcases List.eq_nil_or_concat after with rfl | ⟨after, c, rfl⟩
  · -- the access is the new one
    obtain ⟨rfl, hlast⟩ := List.append_inj' heq rfl
    obtain rfl := (List.cons.inj hlast).1
    exact ha k hb
  · rw [List.concat_eq_append, ← List.cons_append, ← List.append_assoc] at heq
    exact h before b after (List.append_inj' heq rfl).1 k hb

/-- What an access of a machine in range is, for either stack. -/
structure Moves (vm : VM) (a : Access) (vm' : VM) : Prop where
  inArray : 0 ≤ a.slot ∧ a.slot < 256
  pointer_eq : ∀ k, vm'.pointer k = a.moved k (vm.pointer k)
  /-- A push is to the slot at the pointer, and only it writes. -/
  pushed : ∀ k, a.kind = .push k → a.slot = vm.pointer k ∧
    vm'.slots k = Function.update (vm.slots k) a.slot.toNat a.value
  kept : ∀ k, a.kind ≠ .push k → vm'.slots k = vm.slots k
  /-- A pop is from the slot below the pointer. -/
  popped : ∀ k, a.kind = .pop k → a.slot = vm.pointer k - 1 ∧ a.value = vm.slots k a.slot.toNat

theorem vmPush_eq_ok {v : CInt} (h : vmPush vm v = .ok vm') :
    vm.sp ≠ 256 ∧ 0 ≤ vm.sp ∧ vm.sp < 256 ∧
      vm' = { vm with stack := Function.update vm.stack vm.sp.toNat v, sp := vm.sp + 1 } := by
  unfold vmPush at h
  split at h
  · cases h
  · next hsp =>
    obtain ⟨i, hindex, heq⟩ := bind_eq_ok.mp h
    obtain ⟨hlo, hhi, rfl⟩ := stackIndex_eq_ok hindex
    exact ⟨hsp, hlo, hhi, (Except.ok.inj heq).symm⟩

theorem vmPop_eq_ok {v : CInt} (h : vmPop vm = .ok (v, vm')) :
    0 < vm.sp ∧ vm.sp - 1 < 256 ∧ v = vm.stack (vm.sp - 1).toNat ∧
      vm' = { vm with sp := vm.sp - 1 } := by
  unfold vmPop at h
  split at h
  · cases h
  · next hsp =>
    obtain ⟨i, hindex, heq⟩ := bind_eq_ok.mp h
    obtain ⟨-, hhi, rfl⟩ := stackIndex_eq_ok hindex
    cases heq
    exact ⟨by omega, hhi, rfl, rfl⟩

/-- What a push on the call stack does that goes through. -/
theorem vmPushCs_eq_ok {v : CInt} (h : vmPushCs vm v = .ok vm') :
    vm.csp ≠ 256 ∧ 0 ≤ vm.csp ∧ vm.csp < 256 ∧
      vm' = { vm with cstack := Function.update vm.cstack vm.csp.toNat v, csp := vm.csp + 1 } := by
  unfold vmPushCs at h
  split at h
  · cases h
  · next hcsp =>
    obtain ⟨i, hindex, heq⟩ := bind_eq_ok.mp h
    obtain ⟨hlo, hhi, rfl⟩ := stackIndex_eq_ok hindex
    exact ⟨hcsp, hlo, hhi, (Except.ok.inj heq).symm⟩

theorem vmPopCs_eq_ok {v : CInt} (h : vmPopCs vm = .ok (v, vm')) :
    0 < vm.csp ∧ vm.csp - 1 < 256 ∧ v = vm.cstack (vm.csp - 1).toNat ∧
      vm' = { vm with csp := vm.csp - 1 } := by
  unfold vmPopCs at h
  split at h
  · cases h
  · next hcsp =>
    obtain ⟨i, hindex, heq⟩ := bind_eq_ok.mp h
    obtain ⟨-, hhi, rfl⟩ := stackIndex_eq_ok hindex
    cases heq
    exact ⟨by omega, hhi, rfl, rfl⟩

/-- Every access of the machine is of this kind. -/
theorem Accesses.moves (h : Accesses vm a vm') : Moves vm a vm' := by
  cases h with
  | push h =>
    -- the operand stack moves, the call stack stays
    obtain ⟨-, hlo, hhi, rfl⟩ := vmPush_eq_ok h
    constructor
    · exact ⟨hlo, hhi⟩
    · rintro (_ | _) <;> rfl
    · rintro (_ | _) hk
      · exact ⟨rfl, rfl⟩
      · cases hk
    · rintro (_ | _) hk
      · exact absurd rfl hk
      · rfl
    · intro k hk
      cases hk
  | pop h =>
    obtain ⟨hlo, hhi, rfl, rfl⟩ := vmPop_eq_ok h
    constructor
    · exact ⟨Int.le_sub_one_of_lt hlo, hhi⟩
    · rintro (_ | _) <;> rfl
    · intro k hk
      cases hk
    · rintro (_ | _) _ <;> rfl
    · rintro (_ | _) hk
      · exact ⟨rfl, rfl⟩
      · cases hk
  | pushCs h =>
    -- the other way round
    obtain ⟨-, hlo, hhi, rfl⟩ := vmPushCs_eq_ok h
    constructor
    · exact ⟨hlo, hhi⟩
    · rintro (_ | _) <;> rfl
    · rintro (_ | _) hk
      · cases hk
      · exact ⟨rfl, rfl⟩
    · rintro (_ | _) hk
      · rfl
      · exact absurd rfl hk
    · intro k hk
      cases hk
  | popCs h =>
    obtain ⟨hlo, hhi, rfl, rfl⟩ := vmPopCs_eq_ok h
    constructor
    · exact ⟨Int.le_sub_one_of_lt hlo, hhi⟩
    · rintro (_ | _) <;> rfl
    · intro k hk
      cases hk
    · rintro (_ | _) _ <;> rfl
    · rintro (_ | _) hk
      · cases hk
      · exact ⟨rfl, rfl⟩
  | load slot =>
    -- an operand byte is an index of `globals`, and no pointer moves
    constructor
    · have hslot := slot.isLt
      dsimp only
      omega
    · rintro (_ | _) <;> rfl
    · intro k hk
      cases hk
    · rintro (_ | _) _ <;> rfl
    · intro k hk
      cases hk
  | store slot v =>
    constructor
    · have hslot := slot.isLt
      dsimp only
      omega
    · rintro (_ | _) <;> rfl
    · intro k hk
      cases hk
    · rintro (_ | _) _ <;> rfl
    · intro k hk
      cases hk

/-- What has been recorded stays sound over a part without an access. -/
theorem Sound.silent (h : Sound hist vm) (hs : Silent vm vm') : Sound hist vm' where
  range k := by
    rw [hs.pointer_eq]
    exact h.range k
  slots := h.slots
  pops := h.pops
  held k i hlo hhi := by
    rw [hs.pointer_eq] at hhi
    rw [hs.slots_eq]
    exact h.held k i hlo hhi

/-- One access keeps what holds. -/
theorem Sound.access (h : Sound hist vm) (ha : Accesses vm a vm') : Sound (hist ++ [a]) vm' := by
  have hm := ha.moves
  constructor
  · intro k
    obtain ⟨hlo, hhi⟩ := h.range k
    rw [hm.pointer_eq]
    unfold Access.moved
    split
    · next hk =>
      have hslot := (hm.pushed k hk).1
      have := hm.inArray
      omega
    · split
      · next hk =>
        have hslot := (hm.popped k hk).1
        have := hm.inArray
        omega
      · exact ⟨hlo, hhi⟩
  · intro b hb
    rcases List.mem_append.mp hb with hb | hb
    · exact h.slots b hb
    · obtain rfl := List.mem_singleton.mp hb
      exact hm.inArray
  · refine h.pops.concat fun k hk => ?_
    obtain ⟨hslot, hvalue⟩ := hm.popped k hk
    rw [hvalue]
    exact h.held k a.slot hm.inArray.1 (by omega)
  · intro k i hlo hhi
    rw [lastPushed_concat]
    rw [hm.pointer_eq] at hhi
    unfold Access.moved at hhi
    -- a push writes one slot and remembers it, everything else leaves the slots alone
    by_cases hk : a.kind = .push k
    · rw [if_pos hk] at hhi
      obtain ⟨hslot, hslots⟩ := hm.pushed k hk
      rw [hslots]
      by_cases hi : a.slot = i
      · rw [if_pos ⟨hk, hi⟩, ← hi, Function.update_self]
      · rw [if_neg fun hc => hi hc.2, Function.update_of_ne (by omega)]
        exact h.held k i hlo (by omega)
    · rw [if_neg hk] at hhi
      rw [if_neg fun hc => hk hc.1, hm.kept k hk]
      refine h.held k i hlo ?_
      split at hhi <;> omega

/-- An instruction: one access after the other. -/
theorem Sound.trail (h : Sound hist vm) (ht : Trail vm as vm') : Sound (hist ++ as) vm' := by
  induction ht generalizing hist with
  | nil hs =>
    rw [List.append_nil]
    exact h.silent hs
  | cons hs ha _ ih =>
    have hnext := ih ((h.silent hs).access ha)
    rwa [List.append_assoc, List.singleton_append] at hnext

/-- Slots below the lowest value of the pointer stay. -/
theorem Trail.frame (ht : Trail vm as vm') (k : StackName) {i : Nat}
    (hi : (i : Int) < lowest k (vm.pointer k) as) : vm'.slots k i = vm.slots k i := by
  induction ht with
  | nil hs => rw [hs.slots_eq]
  | @cons vm vm₁ vm₂ vm' a as hs ha _ ih =>
    have hm := ha.moves
    rw [lowest, ← hs.pointer_eq, ← hm.pointer_eq] at hi
    obtain ⟨hi, hrest⟩ := Int.lt_min.mp hi
    rw [ih hrest, ← hs.slots_eq]
    by_cases hk : a.kind = .push k
    · obtain ⟨hslot, hslots⟩ := hm.pushed k hk
      rw [hslots, Function.update_of_ne (by omega)]
    · rw [hm.kept k hk]

/-! ## Runs -/

/-- The accesses of `n` rounds of the loop. -/
inductive Records : Nat → VM → List Access → VM → Prop where
  | refl (vm : VM) : Records 0 vm [] vm
  | step {n : Nat} {vm vm₁ vm₂ : VM} {as bs : List Access} (hrun : vm.running = true)
    (hstep : vmStep vm = .ok vm₁) (has : Completes vm as vm₁) (hrest : Records n vm₁ bs vm₂) :
    Records (n + 1) vm (as ++ bs) vm₂

/-- Every run has its accesses. -/
theorem Records.exists_of_reaches {n : Nat} (h : vmMachine.Reaches n vm vm') :
    ∃ hist, Records n vm hist vm' := by
  induction h with
  | refl vm => exact ⟨[], .refl vm⟩
  | step hrun hstep _ ih =>
    obtain ⟨as, has⟩ := vmStep_completes hstep
    obtain ⟨bs, hbs⟩ := ih
    exact ⟨as ++ bs, .step hrun hstep has hbs⟩

theorem Sound.records {n : Nat} (h : Sound hist vm) (hr : Records n vm bs vm') :
    Sound (hist ++ bs) vm' := by
  induction hr generalizing hist with
  | refl vm => rwa [List.append_nil]
  | step _ _ has _ ih =>
    have hnext := ih (h.trail has.1)
    rwa [List.append_assoc] at hnext

/-- Nothing has been recorded at the start, and the pointers are 0. -/
theorem sound_vmInit (code : Nat → Byte) (codeSize : Nat) : Sound [] (vmInit code codeSize) where
  range k := by cases k <;> exact ⟨Int.le_refl 0, Int.zero_le_ofNat 256⟩
  slots := fun a ha => absurd ha List.not_mem_nil
  pops := by
    intro before a after heq
    cases before <;> cases heq
  held k i hlo hhi := by
    cases k <;> exact absurd hhi (Int.not_lt.mpr hlo)

end

/-- On any code, after any number of rounds: all accesses since `vm_init` are to slots of the
arrays, every pop among them gives the value pushed last to its slot, and the pointers are in
range. The same is true in the middle of the next instruction, whichever of its accesses it has
made; none of them changes a slot below the lowest value of the pointer. -/
theorem vm_in_range {code : Nat → Byte} {codeSize n : Nat} {vm : VM}
    (h : vmMachine.Reaches n (vmInit code codeSize) vm) :
    ∃ hist, Records n (vmInit code codeSize) hist vm ∧ Sound hist vm ∧
      (vm.running = true →
        (∀ i, vmStep vm ≠ .error (.stackOutOfBounds i)) ∧
        (∀ vm', vmStep vm = .ok vm' → ∃ as, Completes vm as vm') ∧
        ∀ as vm', Begins vm as vm' → Sound (hist ++ as) vm' ∧
          ∀ k (i : Nat), (i : Int) < lowest k (vm.pointer k) as →
            vm'.slots k i = vm.slots k i) := by
  obtain ⟨hist, hrecords⟩ := Records.exists_of_reaches h
  have hsound : Sound hist vm := (sound_vmInit code codeSize).records hrecords
  refine ⟨hist, hrecords, hsound, fun _ => ⟨?_, fun vm' => vmStep_completes, ?_⟩⟩
  · intro i hi
    obtain ⟨as, vm', hbegins, hrange⟩ := vmStep_begins hi
    exact hrange (hsound.trail hbegins.1).range
  · intro as vm' hbegins
    exact ⟨hsound.trail hbegins.1, fun k i hi => hbegins.1.frame k hi⟩

/-- `OP_PUSH 7; OP_CALL 5; OP_HALT`, and a function at 5: `OP_PRINT; OP_RET` -/
def callPrint : Nat → Byte := fun a =>
  ([0x01, 7, 0x0F, 5, 0xFF, 0x07, 0x1F] : List Byte).getD a 0xFF

/-- The function is called, prints and returns. -/
theorem callPrint_runs : ∃ vm, vmMachine.Reaches 4 (vmInit callPrint 7) vm ∧
    (vm.ip, vm.sp, vm.csp, vm.printed) = (4, 0, 0, [7]) :=
  ⟨_, .step rfl rfl (.step rfl rfl (.step rfl rfl (.one rfl rfl))), rfl⟩

theorem vm_in_range_callPrint : ∃ vm, vmMachine.Reaches 4 (vmInit callPrint 7) vm ∧
    (vm.ip, vm.sp, vm.csp, vm.printed) = (4, 0, 0, [7]) ∧
    ∃ hist, Records 4 (vmInit callPrint 7) hist vm ∧ Sound hist vm := by
  obtain ⟨vm, hreach, hends⟩ := callPrint_runs
  obtain ⟨hist, hrecords, hsound, -⟩ := vm_in_range hreach
  exact ⟨vm, hreach, hends, hist, hrecords, hsound⟩

end Bytecode

end SystemsProjects

import SystemsProjects.Bytecode.Variables
import SystemsProjects.Bytecode.VmRules

/-!
# Compiler correctness

The code of a statement, placed anywhere below address 256, makes the machine do what
the statement does. One theorem covers the three ways a run can go: the machine arrives
behind the code when the statement terminates, it faults where the statement stops, and
it makes at least `n` steps when `n` rounds of the loops were not enough
(`stmt_realised`, by induction on the statement, and on the rounds of a loop).

- `Matches`: the globals hold the values of the variables, each at its final slot.
- `VarTable.Ready`: the table in front of a statement, while code is generated.
- `generateByte_correct`: what this says about `vm_run` on the output of
  `generate_byte`.

The source and the machine are compared construct by construct. `expr_realised` is the lemma for
expressions, by induction on the tree; on top of it, `assign_realised`, `print_realised`,
`if_realised` and `while_realised` say what a statement does given what its parts do, and
`stmt_realised` puts them together. A loop needs a second induction, on the rounds that are
left: each round of the source costs the machine at least one step, the jump back, and this is
why a source that never ends gives a machine that never ends.
-/

namespace SystemsProjects

namespace Bytecode

open Fueled

/-! ## Faults -/

/-- The machine's fault for a fault of the source. -/
def SourceStop.vmStop : SourceStop → VmStop
  | .divisionByZero => .divisionByZero
  | .divisionOverflow => .divisionOverflow

/-- The machine stops as the source does, having printed the same. -/
def Stopped (i : SourceStop × List CInt) (e : VmStop) (vm : VM) : Prop :=
  e = i.1.vmStop ∧ vm.printed = i.2

section Simulation

variable {code : Nat → Byte} {size n : Nat} {globals : Nat → CInt} {printed : List CInt}

/-! ## Operators -/

section Operators

variable {vm : VM} {ip : Nat} {st : List CInt} {a b : CInt} {op : BinOp}

/-- One arithmetic instruction, with its operands on the stack: it pushes the result, or faults as
the source does. -/
theorem arith_realised (f : CInt → CInt → Except VmStop CInt)
    (hexec : ∀ vm, vmExec op.opCode vm = vmArith f vm)
    (hf : f a b = (op.apply a b).mapError SourceStop.vmStop)
    (h : vm.At code size ip (st ++ [a] ++ [b]) globals printed) (hip : ip < size)
    (hop : code ip = op.opCode.toByte) :
    vmMachine.Realises Stopped n vm (withPrints printed (op.apply a b))
      fun v vm' => vm'.At code size (ip + 1) (st ++ [v]) globals printed := by
  obtain ⟨vm₁, hstep, h₁⟩ := h.vmStep hip hop
  obtain ⟨hok, herror⟩ := h₁.vmArith (f := f)
  rw [hexec] at hstep
  cases happly : op.apply a b with
  | ok v =>
    rw [happly] at hf
    obtain ⟨vm₂, harith, h₂⟩ := hok v hf
    exact .after (h.reaches (hstep.trans harith)) (.done h₂) (Nat.le_add_left n 1)
  | error i =>
    rw [happly] at hf
    exact .stop h.running (hstep.trans (herror _ hf)) ⟨rfl, h.printed_eq⟩

/-- One comparison, with its operands on the stack: it pushes 1 or 0. -/
theorem compare_realised (f : CInt → CInt → Bool)
    (hexec : ∀ vm, vmExec op.opCode vm = vmCompare f vm)
    (hf : op.apply a b = .ok (if f b a then 1 else 0))
    (h : vm.At code size ip (st ++ [a] ++ [b]) globals printed) (hip : ip < size)
    (hop : code ip = op.opCode.toByte) :
    vmMachine.Realises Stopped n vm (withPrints printed (op.apply a b))
      fun v vm' => vm'.At code size (ip + 1) (st ++ [v]) globals printed := by
  obtain ⟨vm₁, hstep, h₁⟩ := h.vmStep hip hop
  obtain ⟨vm₂, hcompare, h₂⟩ := h₁.vmCompare (f := f)
  rw [hexec] at hstep
  rw [hf]
  exact .after (h.reaches (hstep.trans hcompare)) (.done h₂) (Nat.le_add_left n 1)

/-- The machine and the source divide alike, faults included. -/
theorem vmDiv_eq (a b : CInt) :
    vmDiv a b = (BinOp.div.apply a b).mapError SourceStop.vmStop := by
  simp only [vmDiv, BinOp.apply]
  by_cases hb : b = 0
  · rw [if_pos hb, if_pos hb]
    rfl
  · rw [if_neg hb, if_neg hb]
    by_cases hmin : a = BitVec.intMin 32 ∧ b = -1
    · rw [if_pos hmin, if_pos hmin]
      rfl
    · rw [if_neg hmin, if_neg hmin]
      rfl

/-- The instruction of an operator does what the operator does. `OP_GT` and `OP_LT` pop
their operands the other way round and compare the other way round as well. -/
theorem op_realised (op : BinOp)
    (h : vm.At code size ip (st ++ [a] ++ [b]) globals printed) (hip : ip < size)
    (hop : code ip = op.opCode.toByte) :
    vmMachine.Realises Stopped n vm (withPrints printed (op.apply a b))
      fun v vm' => vm'.At code size (ip + 1) (st ++ [v]) globals printed := by
  cases op with
  | add => exact arith_realised (fun a b => .ok (a + b)) (fun _ => rfl) rfl h hip hop
  | sub => exact arith_realised (fun a b => .ok (a - b)) (fun _ => rfl) rfl h hip hop
  | mul => exact arith_realised (fun a b => .ok (a * b)) (fun _ => rfl) rfl h hip hop
  | div => exact arith_realised vmDiv (fun _ => rfl) (vmDiv_eq a b) h hip hop
  | eqeq =>
    refine compare_realised (fun a b => a = b) (fun _ => rfl) ?_ h hip hop
    by_cases hab : a = b
    · simp [BinOp.apply, hab]
    · have hba : ¬ b = a := fun h => hab h.symm
      simp [BinOp.apply, hab, hba]
  | gt => exact compare_realised (fun a b => a.slt b) (fun _ => rfl) rfl h hip hop
  | lt => exact compare_realised (fun a b => b.slt a) (fun _ => rfl) rfl h hip hop

end Operators

/-! ## Expressions -/

/-- The globals hold the values of the variables. -/
def Matches (t : VarTable) (S : Store) (globals : Nat → CInt) : Prop :=
  ∀ x i, x ≠ Name.empty → t.lookup x = some i → globals i = S x

/-- What the final table matches, every earlier table does. -/
theorem Matches.of_le {t T : VarTable} {S : Store} (h : Matches T S globals) (hle : t.Le T) :
    Matches t S globals := fun x i hx hi => h x i hx (hle x i hx hi)

/-- An address below 256 is not cut by its operand byte. -/
theorem toNat_byte {i : Nat} (h : i < 256) : (BitVec.ofNat 8 i).toNat = i := by
  rw [BitVec.toNat_ofNat]
  exact Nat.mod_eq_of_lt h

/-- A literal that fits a byte survives its encoding. -/
theorem setWidth_literal {v : CInt} (h : v.toNat < 256) :
    (v.setWidth 8).setWidth 32 = v := by
  apply BitVec.eq_of_toNat_eq
  rw [BitVec.toNat_setWidth, BitVec.toNat_setWidth, Nat.mod_eq_of_lt (a := v.toNat) (by omega)]
  exact Nat.mod_eq_of_lt v.isLt

/-- The code of an expression pushes its value. -/
theorem expr_realised {t : VarTable} {known : List Name} {S : Store} (hknows : t.Knows known)
    (hmatch : Matches t S globals) (e : Expr) (he : e.Compilable known) :
    ∀ {vm : VM} {ip : Nat} {st : List CInt}, vm.At code size ip st globals printed →
      StandsAt code ip (exprCode t e) → ip + (exprCode t e).length ≤ size →
      st.length + (exprCode t e).length ≤ 256 →
      vmMachine.Realises Stopped n vm (withPrints printed (e.eval S))
        fun v vm' => vm'.At code size (ip + (exprCode t e).length) (st ++ [v]) globals
          printed := by
  induction e with
  | num v =>
    intro vm ip st h hcode hip hst
    obtain ⟨hop, hcode⟩ := hcode.cons
    obtain ⟨hv, _⟩ := hcode.cons
    obtain ⟨vm', hreach, h'⟩ := h.push hip (by simp [exprCode] at hst; omega) hop
    rw [hv, setWidth_literal he] at h'
    exact .after hreach (.done h') (Nat.le_add_left n 1)
  | ident x =>
    intro vm ip st h hcode hip hst
    obtain ⟨hx, i, hi⟩ := hknows x he
    have hslot : exprCode t (.ident x) = [OpCode.opLoad.toByte, BitVec.ofNat 8 i] := by
      rw [exprCode, hi]
      rfl
    rw [hslot] at hcode hip hst ⊢
    obtain ⟨hop, hcode⟩ := hcode.cons
    obtain ⟨hb, _⟩ := hcode.cons
    obtain ⟨vm', hreach, h'⟩ := h.load hip (by simp at hst; omega) hop
    rw [hb, toNat_byte (VarTable.lookup_lt hi), hmatch x i hx hi] at h'
    exact .after hreach (.done h') (Nat.le_add_left n 1)
  | bin op l r ihl ihr =>
    intro vm ip st h hcode hip hst
    obtain ⟨hl, hr⟩ := he
    obtain ⟨hcodel, hcode⟩ := StandsAt.append hcode
    obtain ⟨hcoder, hcodeop⟩ := hcode.append
    obtain ⟨hop, _⟩ := hcodeop.cons
    have hlen : (exprCode t (.bin op l r)).length
        = (exprCode t l).length + (exprCode t r).length + 1 := by
      rw [exprCode, List.length_append, List.length_append, ← Nat.add_assoc]
      rfl
    rw [hlen] at hip hst ⊢
    show vmMachine.Realises Stopped n vm
      (withPrints printed (l.eval S >>= fun a => r.eval S >>= fun b => op.apply a b)) _
    rw [withPrints_bind]
    -- the operands one after the other; the value of the left one stays below the right one's
    refine .bind (ihl hl h hcodel (by omega) (by omega)) fun a vm₁ h₁ => ?_
    rw [withPrints_bind]
    have hst₁ : (st ++ [a]).length + (exprCode t r).length ≤ 256 := by
      rw [List.length_append, List.length_singleton]
      omega
    refine .bind (ihr hr h₁ hcoder (by omega) hst₁) fun b vm₂ h₂ => ?_
    rw [← Nat.add_assoc, ← Nat.add_assoc]
    exact op_realised op h₂ (by omega) hop

/-! ## Statements -/

/-- The table in front of a statement placed at `start`: well formed, holding the
variables of `known`, and no longer than the code before it. -/
structure VarTable.Ready (t : VarTable) (known : List Name) (start : Nat) : Prop where
  ok : t.Ok
  knows : t.Knows known
  count_le : t.count ≤ start

/-- The table of a piece of code does for code further on. -/
theorem VarTable.Ready.mono {t : VarTable} {known : List Name} {start start' : Nat}
    (h : t.Ready known start) (hle : start ≤ start') : t.Ready known start' :=
  { h with count_le := Nat.le_trans h.count_le hle }

/-- Behind a statement the table is ready for the next one. -/
theorem VarTable.Ready.next {t : VarTable} {known : List Name} {start : Nat} {s : Stmt}
    (h : t.Ready known start) (hs : s.Compilable known)
    (hfit : start + (stmtCode t start s).length ≤ 255) :
    (t.declareAll s.assigned).Ready (known ++ s.assigned)
      (start + (stmtCode t start s).length) := by
  have hlen := s.length_assigned_le t start
  have hcount := h.count_le
  have hdeclared := t.count_declareAll s.assigned
  exact ⟨h.ok.declareAll _, h.knows.declareAll h.ok hs.assigned_ne (by omega), by omega⟩

/-- Where the machine is behind a piece of code: at the next instruction, with an empty
stack, and with the globals and the output of `σ`. -/
def Arrived (code : Nat → Byte) (size : Nat) (T : VarTable) (ip : Nat) (σ : Source)
    (vm : VM) : Prop :=
  ∃ globals, Matches T σ.store globals ∧ vm.At code size ip [] globals σ.printed

section Statements

variable {T t : VarTable} {known : List Name} {start : Nat} {σ : Source} {vm : VM}

/-- The code of a condition or of a right-hand side, in front of a statement's own
instructions. -/
theorem Arrived.eval (hready : t.Ready known start) (hle : t.Le T)
    (h : Arrived code size T start σ vm) {e : Expr} (he : e.Compilable known)
    (hcode : StandsAt code start (exprCode t e)) (hsize : 256 ≤ size)
    (hfit : start + (exprCode t e).length ≤ 255) :
    vmMachine.Realises Stopped n vm (σ.eval e) fun v vm' =>
      ∃ globals, Matches T σ.store globals ∧
        vm'.At code size (start + (exprCode t e).length) ([] ++ [v]) globals σ.printed := by
  obtain ⟨globals, hmatch, hat⟩ := h
  have hexpr := expr_realised (n := n) hready.knows (hmatch.of_le hle) e he hat hcode
    (by omega) (by rw [List.length_nil]; omega)
  exact hexpr.imp fun v vm' h' => ⟨globals, hmatch, h'⟩

/-- A store to the slot of `x` is an update of `x`: no other variable has its slot. -/
theorem Matches.update {S : Store} (h : Matches T S globals) {x : Name} {i : Nat} {v : CInt}
    (hx : T.lookup x = some i) :
    Matches T (Function.update S x v) (Function.update globals i v) := by
  intro y j hy hj
  by_cases hyx : y = x
  · subst hyx
    rw [hx] at hj
    obtain rfl := Option.some.inj hj
    rw [Function.update_self, Function.update_self]
  · have hji : j ≠ i := by
      rintro rfl
      exact hyx (VarTable.lookup_inj hj hx)
    rw [Function.update_of_ne hyx, Function.update_of_ne hji]
    exact h y j hy hj

/-- An assignment: the value of the right side goes to the slot of the name, old or new. -/
theorem assign_realised (hready : t.Ready known start) {x : Name} {e : Expr}
    (hx : x ≠ Name.empty) (he : e.Compilable known) (hT : (t.declareAll [x]).Le T)
    (hcode : StandsAt code start (stmtCode t start (.assign x e))) (hsize : 256 ≤ size)
    (hfit : start + (stmtCode t start (.assign x e)).length ≤ 255)
    (h : Arrived code size T start σ vm) :
    vmMachine.Realises Stopped n vm ((Stmt.assign x e).exec n σ)
      (Arrived code size T (start + (stmtCode t start (.assign x e)).length)) := by
  rw [stmtCode] at hcode hfit ⊢
  rw [List.length_append] at hfit ⊢
  simp only [List.length_cons, List.length_nil] at hfit ⊢
  obtain ⟨hcodee, hcode⟩ := hcode.append
  obtain ⟨hop, hcode⟩ := hcode.cons
  obtain ⟨hslot, _⟩ := hcode.cons
  have hle : t.Le T := (hready.ok.le_declareAll [x]).trans hT
  refine .bind (Arrived.eval hready hle h he hcodee hsize (by omega)) fun v vm₁ h₁ => ?_
  obtain ⟨globals, hmatch, hat⟩ := h₁
  obtain ⟨vm₂, hreach, hat₂⟩ := hat.store (by omega) hop
  -- the slot of the operand, one byte, is the slot of the name in the end
  have hcount := hready.count_le
  have hlookup : (t.declare x).lookup x = some (t.slotFor x) :=
    VarTable.lookup_declare (by omega)
  rw [hslot, toNat_byte (VarTable.lookup_lt hlookup)] at hat₂
  have hfinal := hmatch.update (v := v) (hT x _ hx hlookup)
  exact .after hreach (.done ⟨_, hfinal, hat₂⟩) (Nat.le_add_left n 1)

theorem print_realised (hready : t.Ready known start) {e : Expr} (he : e.Compilable known)
    (hT : t.Le T) (hcode : StandsAt code start (stmtCode t start (.print e)))
    (hsize : 256 ≤ size) (hfit : start + (stmtCode t start (.print e)).length ≤ 255)
    (h : Arrived code size T start σ vm) :
    vmMachine.Realises Stopped n vm ((Stmt.print e).exec n σ)
      (Arrived code size T (start + (stmtCode t start (.print e)).length)) := by
  rw [stmtCode] at hcode hfit ⊢
  rw [List.length_append] at hfit ⊢
  simp only [List.length_cons, List.length_nil] at hfit ⊢
  obtain ⟨hcodee, hcode⟩ := hcode.append
  obtain ⟨hop, _⟩ := hcode.cons
  refine .bind (Arrived.eval hready hT h he hcodee hsize (by omega)) fun v vm₁ h₁ => ?_
  obtain ⟨globals, hmatch, hat⟩ := h₁
  obtain ⟨vm₂, hreach, hat₂⟩ := hat.print (by omega) hop
  exact .after hreach (.done ⟨globals, hmatch, hat₂⟩) (Nat.le_add_left n 1)

/-- The condition of an `if` or `while` and its jump: the machine is in front of the
block, or at the jump's target. -/
theorem condition_realised (hready : t.Ready known start) {c : Expr} (hc : c.Compilable known)
    (hT : t.Le T) {target : Nat} {rest : List Byte}
    (hcode : StandsAt code start (exprCode t c ++
      OpCode.opJmpIfFalse.toByte :: BitVec.ofNat 8 target :: rest))
    (hsize : 256 ≤ size) (hfit : start + (exprCode t c).length + 2 ≤ 255)
    (htarget : target ≤ 255) (h : Arrived code size T start σ vm) :
    vmMachine.Realises Stopped n vm (σ.eval c) fun v vm' => ∃ vm₁, vmMachine.Reaches 1 vm' vm₁ ∧
      Arrived code size T (if v ≠ 0 then start + (exprCode t c).length + 2 else target) σ
        vm₁ := by
  obtain ⟨hcodec, hcode⟩ := hcode.append
  obtain ⟨hop, hcode⟩ := hcode.cons
  obtain ⟨hbyte, _⟩ := hcode.cons
  refine (Arrived.eval hready hT h hc hcodec hsize (by omega)).imp fun v vm₁ h₁ => ?_
  obtain ⟨globals, hmatch, hat⟩ := h₁
  obtain ⟨vm₂, hreach, hat₂⟩ := hat.jmpIfFalse (by omega) hop
  rw [hbyte, toNat_byte (by omega)] at hat₂
  exact ⟨vm₂, hreach, globals, hmatch, hat₂⟩

end Statements

/-! ## Blocks -/

section Blocks

variable {T t : VarTable} {known : List Name} {start : Nat} {σ : Source} {vm : VM}
  {c : Expr} {b : List Stmt}

/-- An `if`, given what its block does: a false condition jumps behind the block. -/
theorem if_realised (hready : t.Ready known start) (hc : c.Compilable known) (hT : t.Le T)
    (hcode : StandsAt code start (stmtCode t start (.ifStmt c b))) (hsize : 256 ≤ size)
    (hfit : start + (stmtCode t start (.ifStmt c b)).length ≤ 255)
    (hbody : ∀ {vm}, Arrived code size T (start + (exprCode t c).length + 2) σ vm →
      vmMachine.Realises Stopped n vm (Stmt.execList n b σ)
        (Arrived code size T (start + (exprCode t c).length + 2 +
          (stmtsCode t (start + (exprCode t c).length + 2) b).length)))
    (h : Arrived code size T start σ vm) :
    vmMachine.Realises Stopped n vm ((Stmt.ifStmt c b).exec n σ)
      (Arrived code size T (start + (stmtCode t start (.ifStmt c b)).length)) := by
  rw [stmtCode, ifCode] at hcode hfit ⊢
  rw [List.length_append, List.length_cons, List.length_cons] at hfit ⊢
  -- the condition has been evaluated and its jump is done
  have hcond := condition_realised (n := n) hready hc hT hcode hsize (by omega) (by omega) h
  refine .bind hcond fun v vm₁ h₁ => ?_
  obtain ⟨vm₂, hreach, harr⟩ := h₁
  have hend : start + ((exprCode t c).length +
      ((stmtsCode t (start + (exprCode t c).length + 2) b).length + 1 + 1))
      = start + (exprCode t c).length + 2 +
        (stmtsCode t (start + (exprCode t c).length + 2) b).length := by omega
  rw [hend]
  refine .after hreach ?_ (Nat.le_add_left n 1)
  -- in front of the block, or behind it
  by_cases hv : v ≠ 0
  · rw [if_pos hv] at harr ⊢
    exact hbody harr
  · rw [if_neg hv] at harr ⊢
    exact .done harr

/-- The rounds of a loop, by induction on how many are left. Each one takes a step of the
machine at least, the jump of its condition. -/
theorem while_realised (hready : t.Ready known start) (hc : c.Compilable known) (hT : t.Le T)
    (hcode : StandsAt code start (stmtCode t start (.whileStmt c b))) (hsize : 256 ≤ size)
    (hfit : start + (stmtCode t start (.whileStmt c b)).length ≤ 255)
    (hbody : ∀ {σ vm}, Arrived code size T (start + (exprCode t c).length + 2) σ vm →
      vmMachine.Realises Stopped n vm (Stmt.execList n b σ)
        (Arrived code size T (start + (exprCode t c).length + 2 +
          (stmtsCode t (start + (exprCode t c).length + 2) b).length)))
    (m : Nat) (hm : m ≤ n) (h : Arrived code size T start σ vm) :
    vmMachine.Realises Stopped m vm
      (whileLoop (fun σ => σ.eval c) (fun σ => Stmt.execList n b σ) m σ)
      (Arrived code size T (start + (stmtCode t start (.whileStmt c b)).length)) := by
  induction m generalizing σ vm with
  | zero => exact .out
  | succ m ih =>
    have hcode' := hcode
    have hfit' := hfit
    rw [stmtCode, whileCode] at hcode' hfit'
    rw [List.length_append, List.length_cons, List.length_cons, List.length_append,
      List.length_cons, List.length_cons, List.length_nil] at hfit'
    have hcond := condition_realised (n := m + 1) hready hc hT hcode' hsize (by omega)
      (by omega) h
    refine .bind hcond fun v vm₁ h₁ => ?_
    obtain ⟨vm₂, hreach, harr⟩ := h₁
    have hend : start + (stmtCode t start (.whileStmt c b)).length
        = start + (exprCode t c).length + 2 +
          (stmtsCode t (start + (exprCode t c).length + 2) b).length + 2 := by
      rw [stmtCode, whileCode, List.length_append, List.length_cons, List.length_cons,
        List.length_append, List.length_cons, List.length_cons, List.length_nil]
      omega
    rw [hend] at ih ⊢
    by_cases hv : v ≠ 0
    · rw [if_pos hv] at harr ⊢
      have hrun : vmMachine.Realises Stopped (m + 1) vm₂ (Stmt.execList n b σ) _ :=
        .after (.refl vm₂) (hbody harr) (by omega)
      refine .after hreach (.bind hrun fun σ' vm₃ harr' => ?_) (Nat.le_add_left _ 1)
      -- behind the block stands the jump back to the condition
      obtain ⟨globals, hmatch, hat⟩ := harr'
      obtain ⟨_, hrest⟩ := StandsAt.append hcode'
      obtain ⟨_, hblock⟩ := hrest.cons.2.cons.2.append
      obtain ⟨hop, hback⟩ := hblock.cons
      obtain ⟨hbyte, _⟩ := hback.cons
      have haddr : start + (exprCode t c).length + 1 + 1 = start + (exprCode t c).length + 2 :=
        rfl
      rw [haddr] at hop hbyte
      obtain ⟨vm₄, hreach', hat'⟩ := hat.jmp (by omega) hop
      rw [hbyte, toNat_byte (by omega)] at hat'
      exact .after hreach' (ih (by omega) ⟨globals, hmatch, hat'⟩) (by omega)
    · rw [if_neg hv] at harr ⊢
      have htarget : start + (exprCode t c).length + 2 +
          (stmtsCode t (start + (exprCode t c).length + 2) b).length + 2
          = start + (exprCode t c).length + 2 +
            (stmtsCode t (start + (exprCode t c).length + 2) b).length + 2 := rfl
      exact .after hreach (.done harr) (Nat.le_add_left _ 1)

end Blocks

mutual

/-- The code of a statement does what the statement does. -/
theorem stmt_realised {T : VarTable} (hsize : 256 ≤ size) :
    ∀ (s : Stmt) {t : VarTable} {known : List Name} {start : Nat} {σ : Source} {vm : VM},
      t.Ready known start → s.Compilable known → (t.declareAll s.assigned).Le T →
      StandsAt code start (stmtCode t start s) → start + (stmtCode t start s).length ≤ 255 →
      Arrived code size T start σ vm →
      vmMachine.Realises Stopped n vm (s.exec n σ)
        (Arrived code size T (start + (stmtCode t start s).length))
  | .assign x e, t, known, start, σ, vm, hready, hs, hT, hcode, hfit, h =>
    assign_realised hready hs.1 hs.2 hT hcode hsize hfit h
  | .print e, t, known, start, σ, vm, hready, hs, hT, hcode, hfit, h =>
    print_realised hready hs hT hcode hsize hfit h
  | .ifStmt c b, t, known, start, σ, vm, hready, hs, hT, hcode, hfit, h => by
    -- declaring moves no name: the table in front agrees with the final one
    have hle := (hready.ok.le_declareAll _).trans hT
    refine if_realised hready hs.1 hle hcode hsize hfit (fun harr => ?_) h
    rw [stmtCode, ifCode] at hcode hfit
    rw [List.length_append, List.length_cons, List.length_cons] at hfit
    exact stmts_realised hsize b (hready.mono (by omega)) hs.2 hT
      hcode.append.2.cons.2.cons.2 (by omega) harr
  | .whileStmt c b, t, known, start, σ, vm, hready, hs, hT, hcode, hfit, h => by
    have hle := (hready.ok.le_declareAll _).trans hT
    refine while_realised hready hs.1 hle hcode hsize hfit (fun harr => ?_) n (Nat.le_refl n) h
    rw [stmtCode, whileCode] at hcode hfit
    rw [List.length_append, List.length_cons, List.length_cons, List.length_append] at hfit
    exact stmts_realised hsize b (hready.mono (by omega)) hs.2 hT
      hcode.append.2.cons.2.cons.2.append.1 (by omega) harr

/-- The same of statements one after the other. -/
theorem stmts_realised {T : VarTable} (hsize : 256 ≤ size) :
    ∀ (ss : List Stmt) {t : VarTable} {known : List Name} {start : Nat} {σ : Source} {vm : VM},
      t.Ready known start → Stmt.AllCompilable known ss →
      (t.declareAll (Stmt.assignedList ss)).Le T →
      StandsAt code start (stmtsCode t start ss) → start + (stmtsCode t start ss).length ≤ 255 →
      Arrived code size T start σ vm →
      vmMachine.Realises Stopped n vm (Stmt.execList n ss σ)
        (Arrived code size T (start + (stmtsCode t start ss).length))
  | [], t, known, start, σ, vm, hready, hs, hT, hcode, hfit, h => .done h
  | s :: ss, t, known, start, σ, vm, hready, hs, hT, hcode, hfit, h => by
    rw [stmtsCode] at hcode hfit ⊢
    rw [List.length_append] at hfit ⊢
    have hsplit : t.declareAll (Stmt.assignedList (s :: ss))
        = (t.declareAll s.assigned).declareAll (Stmt.assignedList ss) := List.foldl_append ..
    rw [hsplit] at hT
    have hnext := hready.next hs.1 (by omega)
    have hle := (hnext.ok.le_declareAll _).trans hT
    rw [← Nat.add_assoc]
    refine .bind (stmt_realised hsize s hready hs.1 hle hcode.append.1 (by omega) h)
      fun σ' vm' h' => ?_
    exact stmts_realised hsize ss hnext hs.2 hT hcode.append.2 (by omega) h'

end

end Simulation

/-! ## Whole programs -/

/-- The machine has executed `OP_HALT` with the output and the store of `σ`. -/
def Halted (T : VarTable) (σ : Source) (vm : VM) : Prop :=
  vm.running = false ∧ vm.printed = σ.printed ∧ vm.sp = 0 ∧ Matches T σ.store vm.globals

/-- The code of a program with `OP_HALT` behind it makes the machine do what the program
does. -/
theorem program_realised (mem : Nat → Byte) {prog : List Stmt}
    (hprog : Stmt.AllCompilable [] prog)
    (hfit : (stmtsCode .empty 0 prog).length + 1 ≤ 256) (n : Nat) :
    vmMachine.Realises Stopped n
      (vmInit (overwrite mem 0 (stmtsCode .empty 0 prog ++ [OpCode.opHalt.toByte]))
        byteArraySize)
      (Stmt.execList n prog .init)
      (Halted (VarTable.empty.declareAll (Stmt.assignedList prog))) := by
  have hready : VarTable.empty.Ready [] 0 :=
    ⟨VarTable.empty_ok, fun x hx => absurd hx List.not_mem_nil, Nat.le_refl 0⟩
  obtain ⟨hcode, hhalt⟩ := StandsAt.append
    (standsAt_overwrite mem 0 (stmtsCode .empty 0 prog ++ [OpCode.opHalt.toByte]))
  -- before the first instruction no variable has a value but 0
  have hinit : ∀ code, Arrived code byteArraySize
      (VarTable.empty.declareAll (Stmt.assignedList prog)) 0 .init (vmInit code byteArraySize) :=
    fun code => ⟨fun _ => 0, fun _ _ _ _ => rfl, vmInit_at code byteArraySize⟩
  have hrun := stmts_realised (n := n) (T := VarTable.empty.declareAll (Stmt.assignedList prog))
    (by decide) prog hready hprog (.refl _) hcode (by omega) (hinit _)
  refine hrun.extend fun σ vm harr => ?_
  -- behind the last statement stands `OP_HALT`
  obtain ⟨globals, hmatch, hat⟩ := harr
  obtain ⟨vm', hreach, hstop, hsp, hglobals, hprinted⟩ :=
    hat.halt (by unfold byteArraySize; omega) hhalt.cons.1
  refine ⟨1, vm', hreach, hstop, hprinted, hsp, ?_⟩
  rw [hglobals]
  exact hmatch

/-- An assigned variable has a slot in the table at the end. -/
theorem lookup_assigned {prog : List Stmt} (hprog : Stmt.AllCompilable [] prog)
    (hfit : (stmtsCode .empty 0 prog).length + 1 ≤ 256) {x : Name}
    (hx : x ∈ Stmt.assignedList prog) :
    x ≠ Name.empty ∧
      ∃ i, (VarTable.empty.declareAll (Stmt.assignedList prog)).lookup x = some i := by
  have hlen := Stmt.length_assignedList_le prog .empty 0
  have hempty : VarTable.empty.Knows [] := fun y hy => absurd hy List.not_mem_nil
  have hcount : VarTable.empty.count = 0 := rfl
  have hknows := hempty.declareAll VarTable.empty_ok hprog.assigned_ne (by omega)
  exact hknows x hx

/-- **Compiler correctness.** On the code of a compilable program, `vm_run` halts exactly
when the source run terminates, with the same output, the store in the slots of the
assigned variables and an empty stack; it stops on a division exactly when the source run
does, after the same output; and it stops in no other way. -/
theorem generateByte_correct {mem : Nat → Byte} {statements : List Node} {len : Nat}
    {prog : List Stmt} {g : GenState} (hprog : program? statements len = some prog)
    (hcompilable : Stmt.AllCompilable [] prog)
    (hgen : generateByte mem .empty statements len = .ok g)
    (hsize : g.byteArrayCount + 1 ≤ 256) :
    (∀ P S, Terminates prog P S ↔
      (∃ vm, vmMachine.HaltsIn (vmInit g.byteArray byteArraySize) vm ∧ vm.printed = P ∧
        vm.sp = 0 ∧ ∀ x ∈ Stmt.assignedList prog,
          ∃ i, g.vars.lookup x = some i ∧ vm.globals i = S x) ∧
      ∀ x, x ∉ Stmt.assignedList prog → S x = 0) ∧
    (∀ i P, Stops prog i P ↔
      ∃ vm, vmMachine.FaultsIn (vmInit g.byteArray byteArraySize) i.vmStop vm ∧
        vm.printed = P) ∧
    (∀ e vm, vmMachine.FaultsIn (vmInit g.byteArray byteArraySize) e vm →
      e = .divisionByZero ∨ e = .divisionOverflow) := by
  obtain ⟨hcount, harray, hvars⟩ := generateByte_eq hprog hgen
  rw [hcount] at hsize
  rw [harray, hvars]
  have hreal := program_realised mem hcompilable hsize
  have hrest : ∀ σ vm, Halted (VarTable.empty.declareAll (Stmt.assignedList prog)) σ vm →
      vmMachine.running vm = false := fun σ vm h => h.1
  have hframe : ∀ {n σ x}, Stmt.execList n prog .init = .done σ →
      x ∉ Stmt.assignedList prog → σ.store x = 0 :=
    fun h hx => Stmt.execList_frame prog hx h
  -- forwards by running the code, backwards because the machine is deterministic
  refine ⟨fun P S => ⟨?_, ?_⟩, fun i P => ⟨?_, ?_⟩, ?_⟩
  · rintro ⟨n, hn⟩
    dsimp only at hn
    have hrun := hreal n
    rw [hn] at hrun
    obtain ⟨k, vm, hreach, hhalted⟩ := hrun
    obtain ⟨hstop, hprinted, hsp, hmatch⟩ := hhalted
    refine ⟨⟨vm, hreach.haltsIn hstop, hprinted, hsp, fun x hx => ?_⟩, fun x hx => hframe hn hx⟩
    obtain ⟨hne, i, hi⟩ := lookup_assigned hcompilable hsize hx
    exact ⟨i, hi, hmatch x i hne hi⟩
  · rintro ⟨⟨vm, hhalts, hprinted, -, hslots⟩, hzero⟩
    obtain ⟨σ, ⟨n, hn⟩, -, hprinted', -, hmatch⟩ := Machine.halts_realised hreal hrest hhalts
    obtain rfl : P = σ.printed := hprinted.symm.trans hprinted'
    have hstore : S = σ.store := by
      funext x
      by_cases hx : x ∈ Stmt.assignedList prog
      · obtain ⟨i, hi, hv⟩ := hslots x hx
        obtain ⟨hne, _⟩ := lookup_assigned hcompilable hsize hx
        rw [← hv, hmatch x i hne hi]
      · rw [hzero x hx, hframe hn hx]
    rw [hstore]
    exact ⟨n, hn⟩
  · rintro ⟨n, hn⟩
    have hrun := hreal n
    rw [hn] at hrun
    obtain ⟨k, vm, e, hreach, hrunning, hstep, rfl, hprinted⟩ := hrun
    exact ⟨vm, hreach.faultsIn hrunning hstep, hprinted⟩
  · rintro ⟨vm, hfault, rfl⟩
    obtain ⟨⟨j, P⟩, ⟨n, hn⟩, he, hprinted⟩ := Machine.faults_realised hreal hrest hfault
    have hij : i = j := by
      cases i <;> cases j <;> first | rfl | cases he
    rw [hij, hprinted]
    exact ⟨n, hn⟩
  · intro e vm hfault
    obtain ⟨⟨j, P⟩, _, he, _⟩ := Machine.faults_realised hreal hrest hfault
    cases j with
    | divisionByZero => exact .inl he
    | divisionOverflow => exact .inr he

/-- The nodes of the program of `main`. -/
def mainStatements : List Node :=
  let x : Node := { type := some .nodeIdent, name := some .x, left := .null }
  let num (v : CInt) : Node :=
    { type := some .nodeNum, value := some v, left := .null, right := .null }
  [{ type := some .nodeAssign, left := .ref x, right := .ref (num 3) },
   { type := some .nodeWhile
     left := .ref { type := some .nodeGt, left := .ref x, right := .ref (num 0) }
     body := some
       [{ type := some .nodePrint, left := .ref x, right := .null },
        { type := some .nodeAssign, left := .ref x
          right := .ref { type := some .nodeSub, left := .ref x, right := .ref (num 1) } }]
     bodyCount := some 2 }]

/-- The program of `main` prints 3, 2, 1 and halts. -/
theorem generateByte_correct_main : ∃ g vm,
    generateByte (fun _ => 0) .empty mainStatements 2 = .ok g ∧
      vmMachine.HaltsIn (vmInit g.byteArray byteArraySize) vm ∧ vm.printed = [3, 2, 1] := by
  -- both runs are finite computations
  have hfits : ((generateByte (fun _ => 0) .empty mainStatements 2).toOption.any
      fun g => g.byteArrayCount + 1 ≤ 256) = true := by decide +kernel
  have hprints : (match Stmt.execList 4 mainProgram .init with
      | .done σ => σ.printed
      | _ => []) = [3, 2, 1] := by decide +kernel
  cases hgen : generateByte (fun _ => 0) .empty mainStatements 2 with
  | error i =>
    rw [hgen] at hfits
    cases hfits
  | ok g =>
    rw [hgen] at hfits
    have hprog : program? mainStatements 2 = some mainProgram := rfl
    have hcorrect := generateByte_correct hprog (by decide) hgen (of_decide_eq_true hfits)
    cases hrun : Stmt.execList 4 mainProgram .init with
    | done σ =>
      rw [hrun] at hprints
      -- the source terminates, so the machine halts with the same output
      have hterm : Terminates mainProgram [3, 2, 1] σ.store := by
        rw [← hprints]
        exact ⟨4, hrun⟩
      obtain ⟨vm, hhalts, hprinted, _⟩ := ((hcorrect.1 _ _).mp hterm).1
      exact ⟨g, vm, rfl, hhalts, hprinted⟩
    | stop i =>
      rw [hrun] at hprints
      cases hprints
    | out =>
      rw [hrun] at hprints
      cases hprints

end Bytecode

end SystemsProjects

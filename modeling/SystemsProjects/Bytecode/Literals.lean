import SystemsProjects.Bytecode.CompilerCorrect
import SystemsProjects.Bytecode.Layout
import SystemsProjects.Bytecode.LexerRules

/-!
# Number literals

A literal is written in decimal digits, becomes an `int` in its token and its node, and one
byte behind `OP_PUSH`, which the machine widens to an `int` again.

- `Numeral`, `Constant`: the numerals the lexer makes a token of, and the expressions over them.
- `Constant.evalWith`: the value of an expression, given what its literals stand for;
  `Constant.value` takes the numerals at their word, `Constant.byteValue` modulo 256.
- `Constant.runs`: the machine computes the second one.
- `leavesValue_iff`: so it leaves the value of the expression exactly when the two agree.

The number passes three places on its way: the digits in `numBuilder`, which `atoi` turns into
an `int`; the `value` of the node; and the byte behind `OP_PUSH`. Only the last of them cuts it.
Since the operators wrap, the machine computes the expression over the cut literals, whatever
the nesting (`Constant.runs`, by induction on the expression).
-/

namespace SystemsProjects

namespace Bytecode

/-! ## Constant expressions -/

/-- The digits of a number literal, as many as the lexer has room for. -/
structure Numeral where
  digits : List Char
  isDigits : ∀ c ∈ digits, isdigit c = true
  nonempty : digits ≠ []
  short : digits.length < 32
  small : Nat.ofDigitChars 10 digits 0 ≤ 2147483647

/-- The number that is written. -/
def Numeral.value (m : Numeral) : Nat := Nat.ofDigitChars 10 m.digits 0

/-- The `value` of the token: `atoi` on the digits in `numBuilder`. -/
def Numeral.token (m : Numeral) : CInt := atoi (m.digits ++ [nul])

/-- A constant expression over the operators other than division. -/
inductive Constant where
  | lit (m : Numeral)
  | bin (op : BinOp) (hop : op ≠ .div) (l r : Constant)

/-- The expression the parser makes of it. -/
def Constant.expr : Constant → Expr
  | .lit m => .num m.token
  | .bin op _ l r => .bin op l.expr r.expr

/-- The operators on 32-bit integers, wrapping around. -/
def BinOp.wrap : BinOp → CInt → CInt → CInt
  | .add, a, b => a + b
  | .sub, a, b => a - b
  | .mul, a, b => a * b
  | .div, a, b => a.sdiv b
  | .eqeq, a, b => if a = b then 1 else 0
  | .gt, a, b => if b.slt a then 1 else 0
  | .lt, a, b => if a.slt b then 1 else 0

/-- The value of an expression whose literals stand for `f`. -/
def Constant.evalWith (f : Numeral → Nat) : Constant → CInt
  | .lit m => BitVec.ofNat 32 (f m)
  | .bin op _ l r => op.wrap (l.evalWith f) (r.evalWith f)

/-- The wrapping value of the expression as it is written. -/
def Constant.value : Constant → CInt := Constant.evalWith Numeral.value

/-- The same with each literal reduced to a byte. -/
def Constant.byteValue : Constant → CInt := Constant.evalWith fun m => m.value % 256

/-- The stack slots that are in use at most. -/
def Constant.slots : Constant → Nat
  | .lit _ => 1
  | .bin _ _ l r => max l.slots (r.slots + 1)

/-- Every literal is below 256. -/
def Constant.Small : Constant → Prop
  | .lit m => m.value < 256
  | .bin _ _ l r => l.Small ∧ r.Small

/-- Every operator but the division wraps and never faults. -/
theorem BinOp.apply_of_ne_div {op : BinOp} (h : op ≠ .div) (a b : CInt) :
    op.apply a b = .ok (op.wrap a b) := by
  cases op with
  | div => exact absurd rfl h
  | _ => rfl

/-! ## From the digits to the byte and back -/

/-- The token has the number that is written. -/
theorem Numeral.token_eq (m : Numeral) : m.token = BitVec.ofNat 32 m.value := by
  have hnul : ∀ c ∈ m.digits, (c != nul) = true := fun c hc =>
    bne_iff_ne.mpr (ne_nul_of_isalnum (isalnum_of_isdigit (m.isDigits c hc)))
  have hstring : cstring (m.digits ++ [nul]) = m.digits := by
    rw [cstring, List.takeWhile_append_of_pos hnul]
    simp
  have hsmall := m.small
  -- the saturation of `atoi` does not matter below 2147483648
  rw [Numeral.token, atoi, hstring, List.takeWhile_eq_self_iff.mpr m.isDigits, Numeral.value,
    Nat.min_eq_left (by omega)]

/-- The byte behind `OP_PUSH` keeps the number modulo 256. -/
theorem Numeral.token_setWidth (m : Numeral) :
    (m.token.setWidth 8).setWidth 32 = BitVec.ofNat 32 (m.value % 256) := by
  rw [m.token_eq]
  apply BitVec.eq_of_toNat_eq
  simp only [BitVec.toNat_setWidth, BitVec.toNat_ofNat]
  have hsmall : m.value ≤ 2147483647 := m.small
  omega

/-- Literals below 128 survive the byte they are written to. -/
theorem Constant.byteValue_of_small {c : Constant} (h : c.Small) : c.byteValue = c.value := by
  rw [Constant.byteValue, Constant.value]
  induction c with
  | lit m => rw [Constant.evalWith, Constant.evalWith, Nat.mod_eq_of_lt h]
  | bin op hop l r ihl ihr => rw [Constant.evalWith, Constant.evalWith, ihl h.1, ihr h.2]

/-- For a single literal there is nothing that could make up for the reduction. -/
theorem Constant.byteValue_lit_iff (m : Numeral) :
    (Constant.lit m).byteValue = (Constant.lit m).value ↔ m.value < 256 := by
  refine ⟨fun h => ?_, fun h => Constant.byteValue_of_small h⟩
  have hnat := congrArg BitVec.toNat h
  have hsmall : m.value ≤ 2147483647 := m.small
  simp only [Constant.byteValue, Constant.value, Constant.evalWith, BitVec.toNat_ofNat] at hnat
  omega

/-! ## Running the code -/

section Run

variable {code : Nat → Byte} {size : Nat} {t : VarTable} {globals : Nat → CInt}
  {printed : List CInt}

/-- The instruction of an operator other than division replaces its operands by their value. -/
theorem wrap_reaches {op : BinOp} (hop : op ≠ .div) {vm : VM} {ip : Nat} {st : List CInt}
    {a b : CInt} (h : vm.At code size ip (st ++ [a] ++ [b]) globals printed) (hip : ip < size)
    (hcode : code ip = op.opCode.toByte) :
    ∃ k vm', vmMachine.Reaches k vm vm' ∧
      vm'.At code size (ip + 1) (st ++ [op.wrap a b]) globals printed := by
  have hreal := op_realised (n := 0) op h hip hcode
  rw [BinOp.apply_of_ne_div hop] at hreal
  exact hreal

/-- The code of a constant expression pushes its value over the bytes of its literals. -/
theorem Constant.runs (c : Constant) : ∀ {vm : VM} {ip : Nat} {st : List CInt},
    vm.At code size ip st globals printed → StandsAt code ip (exprCode t c.expr) →
    ip + c.expr.size t ≤ size → st.length + c.slots ≤ 256 →
    ∃ k vm', vmMachine.Reaches k vm vm' ∧
      vm'.At code size (ip + c.expr.size t) (st ++ [c.byteValue]) globals printed := by
  induction c with
  | lit m =>
    intro vm ip st h hcode hip hst
    obtain ⟨hop, hcode⟩ := hcode.cons
    obtain ⟨hv, -⟩ := hcode.cons
    have hsize : (Constant.lit m).expr.size t = 2 := rfl
    obtain ⟨vm', hreach, h'⟩ := h.push (by omega) hst hop
    rw [hv, m.token_setWidth] at h'
    exact ⟨1, vm', hreach, h'⟩
  | bin op hop l r ihl ihr =>
    intro vm ip st h hcode hip hst
    have hsize : (Constant.bin op hop l r).expr.size t = l.expr.size t + r.expr.size t + 1 := rfl
    have hslots : (Constant.bin op hop l r).slots = max l.slots (r.slots + 1) := rfl
    rw [hsize] at hip ⊢
    rw [hslots] at hst
    obtain ⟨hcodel, hcode⟩ := StandsAt.append hcode
    obtain ⟨hcoder, hcodeop⟩ := hcode.append
    rw [exprCode_length] at hcoder hcodeop
    rw [exprCode_length] at hcodeop
    -- the left operand is on the stack while the right one is computed
    obtain ⟨k, vm₁, hreach₁, h₁⟩ := ihl h hcodel (by omega) (by omega)
    obtain ⟨k', vm₂, hreach₂, h₂⟩ := ihr h₁ hcoder (by omega)
      (by rw [List.length_append, List.length_singleton]; omega)
    obtain ⟨k'', vm₃, hreach₃, h₃⟩ := wrap_reaches hop h₂ (by omega) hcodeop.cons.1
    refine ⟨_, vm₃, (hreach₁.trans hreach₂).trans hreach₃, ?_⟩
    rw [← Nat.add_assoc, ← Nat.add_assoc]
    exact h₃

end Run

/-- The code in the array runs to its `OP_HALT` and leaves `v` as the only value on the stack. -/
def Leaves (g : GenState) (v : CInt) : Prop :=
  ∃ vm, vmMachine.HaltsIn (vmInit g.byteArray byteArraySize) vm ∧ vm.sp = 1 ∧ vm.stack 0 = v

/-- Code generation for a single expression: its code, then `OP_HALT`. -/
theorem generateByte_expr {e : Expr} {n : Node} {mem : Nat → Byte} {vars : VarTable}
    {g : GenState} (hn : n.expr? = some e) (hg : generateByte mem vars [n] 1 = .ok g) :
    e.size vars < byteArraySize ∧
      StandsAt g.byteArray 0 (exprCode vars e ++ [OpCode.opHalt.toByte]) := by
  obtain ⟨g₁, h₁, hhalt⟩ := bind_eq_ok.mp hg
  obtain ⟨g₂, h₂, hend⟩ := bind_eq_ok.mp h₁
  obtain rfl := Except.ok.inj hend
  obtain rfl := walk_expr hn h₂
  obtain ⟨hlt, rfl⟩ := GenState.write_eq_ok hhalt
  have hcount : 0 + (exprCode vars e).length < byteArraySize := hlt
  rw [exprCode_length, Nat.zero_add] at hcount
  refine ⟨hcount, ?_⟩
  show StandsAt (Function.update (overwrite mem 0 (exprCode vars e))
    (0 + (exprCode vars e).length) OpCode.opHalt.toByte) 0 _
  rw [update_overwrite_singleton, overwrite_append]
  exact standsAt_overwrite mem 0 _

/-- What the code of a constant expression leaves on the stack. -/
theorem leaves_byteValue {c : Constant} {n : Node} {mem : Nat → Byte} {vars : VarTable}
    {g : GenState} (hn : n.expr? = some c.expr) (hslots : c.slots ≤ 256)
    (hg : generateByte mem vars [n] 1 = .ok g) : Leaves g c.byteValue := by
  obtain ⟨hlt, hcode⟩ := generateByte_expr hn hg
  obtain ⟨hcodee, hhalt⟩ := hcode.append
  rw [exprCode_length] at hhalt
  obtain ⟨k, vm, hreach, hat⟩ := c.runs (vmInit_at _ byteArraySize) hcodee (by omega)
    (by rw [List.length_nil]; omega)
  obtain ⟨vm₁, hstep, h₁⟩ := hat.vmStep (by omega) hhalt.cons.1
  have hone : vmMachine.Reaches 1 vm { vm₁ with running := false } := hat.reaches hstep
  have hlast := hreach.trans hone
  exact ⟨_, hlast.haltsIn rfl, h₁.sp_eq, h₁.stack_eq 0 _ rfl⟩

/-- A run comes to rest in one state only. -/
theorem Leaves.unique {g : GenState} {v w : CInt} (hv : Leaves g v) (hw : Leaves g w) : v = w := by
  obtain ⟨vm, hhalts, -, rfl⟩ := hv
  obtain ⟨vm', hhalts', -, rfl⟩ := hw
  rw [Yields.unique (Machine.run_mono _) hhalts hhalts']

/-- The code generated for the expression leaves its value. -/
def LeavesValue (c : Constant) (mem : Nat → Byte) (vars : VarTable) (n : Node) : Prop :=
  ∃ g, generateByte mem vars [n] 1 = .ok g ∧ Leaves g c.value

/-- An expression alone is compiled when its code fits. -/
theorem generateByte_expr_isOk {e : Expr} {n : Node} {vars : VarTable} (hn : n.expr? = some e)
    (hfits : e.size vars + 1 ≤ byteArraySize) (mem : Nat → Byte) :
    ∃ g, generateByte mem vars [n] 1 = .ok g := by
  have hwalk := walk_expr_isOk hn (g := ⟨mem, 0, vars⟩) (by dsimp only; omega)
  have hlt : 0 + (exprCode vars e).length < byteArraySize := by
    rw [exprCode_length]
    omega
  obtain ⟨g, hhalt⟩ := GenState.write_isOk (g := GenState.put ⟨mem, 0, vars⟩ (exprCode vars e)) hlt
    OpCode.opHalt.toByte
  exact ⟨g, bind_eq_ok.mpr ⟨_, bind_eq_ok.mpr ⟨_, hwalk, rfl⟩, hhalt⟩⟩

/-- The code of a constant expression, on the machine, leaves the wrapping value of the
expression exactly when reducing its literals modulo 256 does not change that value. -/
theorem leavesValue_iff {c : Constant} {mem : Nat → Byte} {vars : VarTable} {n : Node}
    (hn : n.expr? = some c.expr) (hfits : c.expr.size vars + 1 ≤ byteArraySize)
    (hslots : c.slots ≤ 256) : LeavesValue c mem vars n ↔ c.byteValue = c.value := by
  obtain ⟨g, hg⟩ := generateByte_expr_isOk hn hfits mem
  have hleaves := leaves_byteValue hn hslots hg
  -- the machine leaves one value, and it is the one over the bytes
  constructor
  · rintro ⟨g', hg', h⟩
    rw [hg] at hg'
    obtain rfl := Except.ok.inj hg'
    exact hleaves.unique h
  · intro h
    rw [h] at hleaves
    exact ⟨g, hg, hleaves⟩

/-! ## Examples -/

/-- The leaf of a number literal. -/
def literalNode (m : Numeral) : Node :=
  { type := some .nodeNum, value := some m.token, left := .null, right := .null }

/-- `300` -/
def threeHundred : Numeral :=
  ⟨['3', '0', '0'], List.all_eq_true.mp (by decide), by decide, by decide, by decide⟩

/-- `7` -/
def seven : Numeral :=
  ⟨['7'], List.all_eq_true.mp (by decide), by decide, by decide, by decide⟩

/-- The code of `300` leaves 44. -/
theorem not_leavesValue_threeHundred :
    (∃ g, generateByte (fun _ => 0) .empty [literalNode threeHundred] 1 = .ok g ∧ Leaves g 44) ∧
      ¬ LeavesValue (.lit threeHundred) (fun _ => 0) .empty (literalNode threeHundred) := by
  have hn : (literalNode threeHundred).expr? = some (Constant.lit threeHundred).expr := rfl
  obtain ⟨g, hg⟩ := @generateByte_expr_isOk _ _ .empty hn (by decide) fun _ => 0
  have hleaves := leaves_byteValue hn (by decide) hg
  refine ⟨⟨g, hg, hleaves⟩, ?_⟩
  rintro ⟨g', hg', h⟩
  rw [hg] at hg'
  obtain rfl := Except.ok.inj hg'
  exact absurd (hleaves.unique h) (by decide)

/-- `7 - 7` -/
def difference : Constant := .bin .sub (by decide) (.lit seven) (.lit seven)

theorem leavesValue_difference : LeavesValue difference (fun _ => 0) .empty
    { type := some .nodeSub, left := .ref (literalNode seven),
      right := .ref (literalNode seven) } :=
  (leavesValue_iff rfl (by decide) (by decide)).mpr rfl

end Bytecode

end SystemsProjects

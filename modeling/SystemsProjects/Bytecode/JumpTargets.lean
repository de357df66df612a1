import SystemsProjects.Bytecode.Layout
import SystemsProjects.Bytecode.CompilerCorrect

/-!
# Jump targets

`walk` stores a jump target in one byte, and `vm_run` reads it back from one byte. A target
behind the first 256 bytes of the code comes out as another one.

- `Stmt.JumpsLand`: the jumps of an `if` or `while` in the code array go where `walk` meant
  them to go.
- `jumpsLand_iff`: all jumps of a program land exactly when every `if` and `while` of it ends
  within the first 255 bytes.

A jump is said to land by what the machine does with it, not by the byte that stands in the
code: `LandsOnZero` and `Lands` execute the instruction in a state that is about to. One jump
lands exactly when its operand byte is its target, and so exactly when the target is below 256.
For a program this is asked of every `if` and `while` in it, where `Placed` says they stand.
-/

namespace SystemsProjects

namespace Bytecode

/-- At `p` stands an `OP_JMP_IF_FALSE`, and executed on a zero it goes to `target`. -/
def LandsOnZero (code : Nat → Byte) (p target : Nat) : Prop :=
  code p = OpCode.opJmpIfFalse.toByte ∧
    ∀ vm : VM, vm.code = code → vm.codeSize = byteArraySize → vm.ip = p →
      0 < vm.sp → vm.sp ≤ 256 → vm.stack (vm.sp - 1).toNat = 0 →
        ∃ vm', vmStep vm = .ok vm' ∧ vm'.ip = target

/-- At `p` stands an `OP_JMP`, and executed it goes to `target`. -/
def Lands (code : Nat → Byte) (p target : Nat) : Prop :=
  code p = OpCode.opJmp.toByte ∧
    ∀ vm : VM, vm.code = code → vm.codeSize = byteArraySize → vm.ip = p →
      ∃ vm', vmStep vm = .ok vm' ∧ vm'.ip = target

/-- The jumps of a statement placed at `n`, in front of which the table is `t`: on a zero
condition just behind the statement, and from the end of a loop to its condition. -/
def Stmt.JumpsLand (code : Nat → Byte) (t : VarTable) (n : Nat) : Stmt → Prop
  | .ifStmt c b => LandsOnZero code (n + c.size t) (n + (Stmt.ifStmt c b).size t)
  | .whileStmt c b => LandsOnZero code (n + c.size t) (n + (Stmt.whileStmt c b).size t) ∧
      Lands code (n + (Stmt.whileStmt c b).size t - 2) n
  | _ => True

/-- The statement is an `if` or a `while`. -/
def Stmt.HasJump : Stmt → Prop
  | .ifStmt _ _ => True
  | .whileStmt _ _ => True
  | _ => False

section

variable {code : Nat → Byte} {p n target : Nat} {t : VarTable}

/-! ## One jump -/

/-- `OP_JMP_IF_FALSE` goes where its operand says. -/
theorem landsOnZero_iff (hp : p + 1 < byteArraySize)
    (hop : code p = OpCode.opJmpIfFalse.toByte) :
    LandsOnZero code p target ↔ (code (p + 1)).toNat = target := by
  have hstep : ∀ vm : VM, vm.code = code → vm.codeSize = byteArraySize → vm.ip = p →
      0 < vm.sp → vm.sp ≤ 256 → vm.stack (vm.sp - 1).toNat = 0 →
        vmStep vm = .ok { vm with sp := vm.sp - 1, ip := (code (p + 1)).toNat } := by
    rintro vm rfl hsize rfl hsp hsp' hzero
    rw [vmStep_eq (by omega) hop]
    have hindex : stackIndex (vm.sp - 1) = .ok (vm.sp - 1).toNat := if_pos ⟨by omega, by omega⟩
    have hpop : vmPop { vm with ip := vm.ip + 1 } =
        .ok (0, { vm with ip := vm.ip + 1, sp := vm.sp - 1 }) := by
      unfold vmPop
      rw [if_neg (by show ¬ vm.sp ≤ 0; omega)]
      show (stackIndex (vm.sp - 1) >>= fun i => Except.ok (vm.stack i, _)) = _
      rw [hindex, ok_bind, hzero]
    have hcode : vmCode { vm with ip := vm.ip + 1, sp := vm.sp - 1 } =
        .ok (vm.code (vm.ip + 1)) := if_pos (by show vm.ip + 1 < vm.codeSize; omega)
    rw [vmExec, hpop, ok_bind]
    dsimp only
    rw [if_neg (by simp), hcode]
    rfl
  constructor
  · rintro ⟨-, hlands⟩
    -- a machine with a zero on its stack
    obtain ⟨vm', hvm', hip⟩ := hlands ⟨code, byteArraySize, p, fun _ => 0, 1, fun _ => 0,
      fun _ => 0, 0, true, []⟩ rfl rfl rfl Int.one_pos (by show (1 : Int) ≤ 256; omega) rfl
    rw [hstep _ rfl rfl rfl Int.one_pos (by show (1 : Int) ≤ 256; omega) rfl] at hvm'
    rw [← hip, ← Except.ok.inj hvm']
  · rintro rfl
    exact ⟨hop, fun vm hcode hsize hip hsp hsp' hzero =>
      ⟨_, hstep vm hcode hsize hip hsp hsp' hzero, rfl⟩⟩

/-- So does `OP_JMP`. -/
theorem lands_of_operand (hp : p + 1 < byteArraySize) (hop : code p = OpCode.opJmp.toByte)
    (htarget : (code (p + 1)).toNat = target) : Lands code p target := by
  refine ⟨hop, ?_⟩
  rintro vm rfl hsize rfl
  have hcode : vmCode { vm with ip := vm.ip + 1 } = .ok (vm.code (vm.ip + 1)) :=
    if_pos (by show vm.ip + 1 < vm.codeSize; omega)
  refine ⟨{ vm with ip := target }, ?_, rfl⟩
  rw [vmStep_eq (by omega) hop, vmExec, hcode, ← htarget]
  rfl

/-- A byte holds a target exactly when it is below 256. -/
theorem toNat_ofNat_eq_iff : (BitVec.ofNat 8 n).toNat = n ↔ n ≤ 255 := by
  rw [BitVec.toNat_ofNat]
  omega

/-! ## The jumps of a statement -/

variable {mem : Nat → Byte} {cs : List Byte} {start : Nat}

/-- The jump behind a condition and its operand, as they stand in the array. -/
theorem Slice.overwrite_cond (mem : Nat → Byte) {cond rest : List Byte} {b : Byte}
    (h : Slice start cs n (cond ++ OpCode.opJmpIfFalse.toByte :: b :: rest)) :
    overwrite mem start cs (n + cond.length) = OpCode.opJmpIfFalse.toByte ∧
      overwrite mem start cs (n + cond.length + 1) = b := by
  constructor
  · refine h.overwrite_eq ?_
    rw [List.getElem?_append_right (Nat.le_refl _), Nat.sub_self]
    rfl
  · rw [Nat.add_assoc]
    refine h.overwrite_eq ?_
    rw [List.getElem?_append_right (Nat.le_add_right ..), Nat.add_sub_cancel_left]
    rfl

/-- The jump of an `if` lands exactly when its target fits a byte. -/
theorem ifStmt_jumpsLand_iff {c : Expr} {b : List Stmt}
    (h : Slice start cs n (stmtCode t n (.ifStmt c b)))
    (hfits : start + cs.length ≤ byteArraySize) :
    (Stmt.ifStmt c b).JumpsLand (overwrite mem start cs) t n ↔
      n + (Stmt.ifStmt c b).size t ≤ 255 := by
  have hle := Nat.le_trans h.le_length hfits
  have hsize : (Stmt.ifStmt c b).size t = c.size t + 2 + Stmt.sizeList t b := rfl
  rw [stmtCode_length, hsize] at hle
  rw [stmtCode, ifCode] at h
  obtain ⟨hop, hoperand⟩ := h.overwrite_cond mem
  rw [exprCode_length] at hop hoperand
  show LandsOnZero _ _ _ ↔ _
  rw [landsOnZero_iff (by omega) hop, hoperand, stmtsCode_length, hsize,
    show n + c.size t + 2 + Stmt.sizeList t b = n + (c.size t + 2 + Stmt.sizeList t b) by omega]
  exact toNat_ofNat_eq_iff

/-- The jumps of a `while` land exactly when the target behind it fits a byte. -/
theorem whileStmt_jumpsLand_iff {c : Expr} {b : List Stmt}
    (h : Slice start cs n (stmtCode t n (.whileStmt c b)))
    (hfits : start + cs.length ≤ byteArraySize) :
    (Stmt.whileStmt c b).JumpsLand (overwrite mem start cs) t n ↔
      n + (Stmt.whileStmt c b).size t ≤ 255 := by
  have hle := Nat.le_trans h.le_length hfits
  have hsize : (Stmt.whileStmt c b).size t = c.size t + 2 + Stmt.sizeList t b + 2 := rfl
  rw [stmtCode_length, hsize] at hle
  rw [stmtCode, whileCode] at h
  obtain ⟨hop, hoperand⟩ := h.overwrite_cond mem
  rw [exprCode_length] at hop hoperand
  show LandsOnZero _ _ _ ∧ Lands _ _ _ ↔ _
  rw [landsOnZero_iff (by omega) hop, hoperand, stmtsCode_length, hsize,
    show n + c.size t + 2 + Stmt.sizeList t b + 2 = n + (c.size t + 2 + Stmt.sizeList t b + 2) by
      omega, toNat_ofNat_eq_iff]
  refine ⟨And.left, fun hend => ⟨hend, ?_⟩⟩
  -- the way back is a shorter one
  have hback : ∀ i x, [OpCode.opJmp.toByte, BitVec.ofNat 8 n][i]? = some x →
      overwrite mem start cs (n + (c.size t + 2 + Stmt.sizeList t b + i)) = x := by
    intro i x hx
    refine h.overwrite_eq ?_
    have hlen := exprCode_length t c
    have hblen := stmtsCode_length b t (n + (exprCode t c).length + 2)
    rw [List.getElem?_append_right (by omega), show c.size t + 2 + Stmt.sizeList t b + i -
      (exprCode t c).length = (stmtsCode t (n + (exprCode t c).length + 2) b).length + i + 1 + 1 by
      omega, List.getElem?_cons_succ, List.getElem?_cons_succ,
      List.getElem?_append_right (by omega), Nat.add_sub_cancel_left]
    exact hx
  have hjmp := hback 0 _ rfl
  have htarget := hback 1 _ rfl
  rw [show n + (c.size t + 2 + Stmt.sizeList t b + 2) - 2 =
    n + (c.size t + 2 + Stmt.sizeList t b + 0) by omega]
  refine lands_of_operand (by omega) hjmp ?_
  rw [show n + (c.size t + 2 + Stmt.sizeList t b + 0) + 1 =
    n + (c.size t + 2 + Stmt.sizeList t b + 1) by omega, htarget, toNat_ofNat_eq_iff]
  omega

/-! ## The jumps of a program -/

/-- A statement has a jump that lands when its end fits a byte, or none. -/
theorem stmt_jumpsLand_iff {s : Stmt} (h : Slice start cs n (stmtCode t n s))
    (hfits : start + cs.length ≤ byteArraySize) :
    s.JumpsLand (overwrite mem start cs) t n ↔ (s.HasJump → n + s.size t ≤ 255) := by
  cases s with
  | assign x e => exact iff_of_true trivial nofun
  | print e => exact iff_of_true trivial nofun
  | ifStmt c b =>
    rw [ifStmt_jumpsLand_iff h hfits]
    exact ⟨fun h _ => h, fun h => h trivial⟩
  | whileStmt c b =>
    rw [whileStmt_jumpsLand_iff h hfits]
    exact ⟨fun h _ => h, fun h => h trivial⟩

end

/-- The code of a program that fits the array is generated, and all its jumps land, exactly
when it has at most 256 variables and every `if` and `while` ends within the first 255 bytes. -/
theorem jumpsLand_iff {mem : Nat → Byte} {statements : List Node} {len : Nat} {prog : List Stmt}
    (hprog : program? statements len = some prog)
    (hfits : Stmt.sizeList .empty prog + 1 ≤ byteArraySize) :
    (∃ g, generateByte mem .empty statements len = .ok g ∧
      ∀ t n s, Placed .empty 0 prog t n s → s.JumpsLand g.byteArray t n) ↔
    (VarTable.empty.declareAll (Stmt.assignedList prog)).count ≤ 256 ∧
      ∀ t n s, Placed .empty 0 prog t n s → s.HasJump → n + s.size t ≤ 255 := by
  have hisOk : (∃ g, generateByte mem .empty statements len = .ok g) ↔ _ :=
    generateByte_isOk hprog (show 0 ≤ 256 from Nat.zero_le _)
  -- each statement has its code where `Placed` says, in the array
  have hland : ∀ g, generateByte mem .empty statements len = .ok g → ∀ t n s,
      Placed .empty 0 prog t n s →
        (s.JumpsLand g.byteArray t n ↔ (s.HasJump → n + s.size t ≤ 255)) := by
    intro g hg t n s hplaced
    rw [(generateByte_eq hprog hg).2.1]
    refine stmt_jumpsLand_iff (hplaced.slice.append_right _) ?_
    rw [List.length_append, stmtsCode_length]
    show 0 + (_ + 1) ≤ _
    omega
  constructor
  · rintro ⟨g, hg, hjumps⟩
    refine ⟨(hisOk.mp ⟨g, hg⟩).2, fun t n s hplaced => ?_⟩
    exact (hland g hg t n s hplaced).mp (hjumps t n s hplaced)
  · rintro ⟨hcount, hends⟩
    obtain ⟨g, hg⟩ := hisOk.mpr ⟨hfits, hcount⟩
    exact ⟨g, hg, fun t n s hplaced => (hland g hg t n s hplaced).mpr (hends t n s hplaced)⟩

/-! ## Examples -/

/-- A placed statement ends within the program. -/
theorem Placed.end_le {t t' : VarTable} {n n' : Nat} {ss : List Stmt} {s : Stmt}
    (h : Placed t n ss t' n' s) : n' + s.size t' ≤ n + Stmt.sizeList t ss := by
  have hle := h.slice.le_length
  rwa [stmtCode_length, stmtsCode_length] at hle

/-- All jumps of the program of `main` land. -/
theorem jumpsLand_main :
    ∃ g, generateByte (fun _ => 0) .empty mainStatements 2 = .ok g ∧
      ∀ t n s, Placed .empty 0 mainProgram t n s → s.JumpsLand g.byteArray t n := by
  have hprog : program? mainStatements 2 = some mainProgram := rfl
  refine (jumpsLand_iff hprog (by decide)).mpr ⟨by decide, fun t n s hplaced _ => ?_⟩
  have hend : n + s.size t ≤ 0 + Stmt.sizeList .empty mainProgram := hplaced.end_le
  exact Nat.le_trans hend (by decide)

/-- `if 0 { print 1 … print 1 }` with 84 statements in the block. -/
def farProgram : List Stmt := [.ifStmt (.num 0) (List.replicate 84 (.print (.num 1)))]

/-- Its nodes. -/
def farStatements : List Node :=
  let num (v : CInt) : Node :=
    { type := some .nodeNum, value := some v, left := .null, right := .null }
  [{ type := some .nodeIf, left := .ref (num 0)
     body := some (List.replicate 84
       { type := some .nodePrint, left := .ref (num 1), right := .null })
     bodyCount := some 84 }]

/-- The jump over the block goes to 0 instead of 256. -/
theorem jumpsLand_far :
    program? farStatements 1 = some farProgram ∧
      Stmt.sizeList .empty farProgram + 1 ≤ byteArraySize ∧
      ¬ ∃ g, generateByte (fun _ => 0) .empty farStatements 1 = .ok g ∧
        ∀ t n s, Placed .empty 0 farProgram t n s → s.JumpsLand g.byteArray t n := by
  have hprog : program? farStatements 1 = some farProgram := by decide +kernel
  have hsize : Stmt.sizeList .empty farProgram = 256 := by decide +kernel
  refine ⟨hprog, by rw [hsize]; decide, ?_⟩
  rintro ⟨g, hg, hland⟩
  have hjump := hland _ _ _ .head
  have hslice : Slice 0 (stmtsCode .empty 0 farProgram) 0 _ := Placed.head.slice
  rw [(generateByte_eq hprog hg).2.1, stmt_jumpsLand_iff (hslice.append_right _)] at hjump
  · have hend := hjump trivial
    have hsize : 0 + Stmt.size .empty _ = 256 := (Nat.zero_add _).trans hsize
    omega
  · rw [List.length_append, stmtsCode_length, hsize]
    decide

end Bytecode

end SystemsProjects

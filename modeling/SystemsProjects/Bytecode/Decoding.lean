import SystemsProjects.Bytecode.Acceptance
import SystemsProjects.Bytecode.Layout

/-!
# Emitted code as an instruction stream

`walk` begins an instruction with its opcode and appends the operand afterwards, if it finds
one: a name that is not in the table leaves `OP_LOAD` without. `vm_run` takes the next byte
all the same.

- `stmtsChunks`: the instructions `walk` begins, each with the operands it gives it.
- `decodeStarts`: where the instructions begin for `vm_run`, up to the first `OP_HALT`.
- `decodesAsEmitted_iff`: the two agree exactly when every name that is read is in the table.

Both sides are lists of instructions. Flattened by `encode`, the instructions that `walk` begins
are the code that is emitted (`encode_stmtsChunks`), and decoding such a list from its first
address finds its boundaries again exactly when each instruction has all of its operands
(`decodeStarts_iff`, by induction on the list). What is left is to tell from the program when
they have (`stmtsChunks_whole_iff`).
-/

namespace SystemsProjects

namespace Bytecode

/-! ## What is emitted -/

/-- An instruction with the operand bytes it was given. -/
structure Chunk where
  op : OpCode
  operands : List Byte

/-- The operand bytes `vm_run` takes behind an opcode. -/
def OpCode.width : OpCode → Nat
  | .opPush => 1
  | .opLoad => 1
  | .opStore => 1
  | .opJmp => 1
  | .opJmpIfFalse => 1
  | .opCall => 1
  | _ => 0

/-- The instruction has as many operands as `vm_run` takes. -/
def Chunk.Whole (c : Chunk) : Prop := c.operands.length = c.op.width

/-- The bytes of a list of instructions. -/
def encode : List Chunk → List Byte
  | [] => []
  | c :: cs => c.op.toByte :: (c.operands ++ encode cs)

/-- Where the instructions of a list that is placed at `n` begin, and where the list ends. -/
def boundaries (n : Nat) : List Chunk → List Nat
  | [] => [n]
  | c :: cs => n :: boundaries (n + 1 + c.operands.length) cs

/-- The instructions `walk` begins for an expression. -/
def exprChunks (t : VarTable) : Expr → List Chunk
  | .num v => [⟨.opPush, [v.setWidth 8]⟩]
  | .ident x => [⟨.opLoad, ((t.lookup x).map (BitVec.ofNat 8)).toList⟩]
  | .bin op l r => exprChunks t l ++ (exprChunks t r ++ [⟨op.opCode, []⟩])

mutual

/-- The instructions `walk` begins for a statement placed at `n`, in front of which the table
is `t`. -/
def stmtChunks (t : VarTable) (n : Nat) : Stmt → List Chunk
  | .assign x e => exprChunks t e ++ [⟨.opStore, [BitVec.ofNat 8 (t.slotFor x)]⟩]
  | .print e => exprChunks t e ++ [⟨.opPrint, []⟩]
  | .ifStmt c b => exprChunks t c ++
      ⟨.opJmpIfFalse, [BitVec.ofNat 8 (n + c.size t + 2 + Stmt.sizeList t b)]⟩ ::
        stmtsChunks t (n + c.size t + 2) b
  | .whileStmt c b => exprChunks t c ++
      ⟨.opJmpIfFalse, [BitVec.ofNat 8 (n + c.size t + 2 + Stmt.sizeList t b + 2)]⟩ ::
        (stmtsChunks t (n + c.size t + 2) b ++ [⟨.opJmp, [BitVec.ofNat 8 n]⟩])

def stmtsChunks (t : VarTable) (n : Nat) : List Stmt → List Chunk
  | [] => []
  | s :: ss => stmtChunks t n s ++ stmtsChunks (t.declareAll s.assigned) (n + s.size t) ss

end

/-- The bytes of instructions one after the other. -/
theorem encode_append (cs ds : List Chunk) : encode (cs ++ ds) = encode cs ++ encode ds := by
  induction cs with
  | nil => rfl
  | cons c cs ih => simp only [List.cons_append, encode, ih, List.append_assoc]

/-- Cut into instructions or not, the code of an expression is the same. -/
theorem encode_exprChunks (t : VarTable) (e : Expr) : encode (exprChunks t e) = exprCode t e := by
  induction e with
  | num v => rfl
  | ident x => simp only [exprChunks, encode, exprCode, List.append_nil]
  | bin op l r ihl ihr =>
    simp only [exprChunks, encode_append, ihl, ihr, exprCode, encode, List.append_nil]

mutual

/-- The bytes of these instructions are the code that is emitted. -/
theorem encode_stmtChunks : ∀ (s : Stmt) (t : VarTable) (n : Nat),
    encode (stmtChunks t n s) = stmtCode t n s
  | .assign x e, t, n => by
    rw [stmtChunks, encode_append, encode_exprChunks]
    rfl
  | .print e, t, n => by
    rw [stmtChunks, encode_append, encode_exprChunks]
    rfl
  | .ifStmt c b, t, n => by
    rw [stmtChunks, encode_append, encode_exprChunks, encode, encode_stmtsChunks b,
      stmtCode, ifCode, exprCode_length, stmtsCode_length]
    rfl
  | .whileStmt c b, t, n => by
    rw [stmtChunks, encode_append, encode_exprChunks, encode, encode_append, encode_stmtsChunks b,
      stmtCode, whileCode, exprCode_length, stmtsCode_length]
    rfl

theorem encode_stmtsChunks : ∀ (ss : List Stmt) (t : VarTable) (n : Nat),
    encode (stmtsChunks t n ss) = stmtsCode t n ss
  | [], t, n => rfl
  | s :: ss, t, n => by
    rw [stmtsChunks, encode_append, encode_stmtChunks s, encode_stmtsChunks ss, stmtsCode,
      stmtCode_length]

end

/-! ## What is decoded -/

/-- Where the instructions begin that are decoded from `ip` on, up to the first `OP_HALT`. The
fuel bounds their number; a byte that is no opcode ends the decoding. -/
def decodeStarts (code : Nat → Byte) : Nat → Nat → Option (List Nat)
  | 0, _ => none
  | k + 1, ip =>
    match OpCode.ofByte? (code ip) with
    | some .opHalt => some [ip]
    | some op => (decodeStarts code k (ip + 1 + op.width)).map (ip :: ·)
    | none => none

section Decode

variable {code : Nat → Byte} {n k : Nat} {c : Chunk} {cs : List Chunk}

theorem decodeStarts_head {l : List Nat} (h : decodeStarts code k n = some l) :
    ∃ l', l = n :: l' := by
  cases k with
  | zero => cases h
  | succ k =>
    rw [decodeStarts] at h
    split at h
    · exact ⟨[], (Option.some.inj h).symm⟩
    · obtain ⟨l', -, rfl⟩ := Option.map_eq_some_iff.mp h
      exact ⟨l', rfl⟩
    · cases h

theorem boundaries_head (n : Nat) (cs : List Chunk) : ∃ l, boundaries n cs = n :: l := by
  cases cs with
  | nil => exact ⟨[], rfl⟩
  | cons c cs => exact ⟨_, rfl⟩

/-- One instruction is decoded: the next one starts behind the operands its opcode has. -/
theorem decodeStarts_op {op : OpCode} (hop : code n = op.toByte) (hhalt : op ≠ .opHalt) :
    decodeStarts code (k + 1) n = (decodeStarts code k (n + 1 + op.width)).map (n :: ·) := by
  rw [decodeStarts, hop, OpCode.ofByte?_toByte]
  cases op <;> first | rfl | exact absurd rfl hhalt

/-- What is decoded is what was emitted exactly when no operand is missing. -/
theorem decodeStarts_iff (hcode : StandsAt code n (encode cs ++ [OpCode.opHalt.toByte]))
    (hhalt : ∀ c ∈ cs, c.op ≠ .opHalt) :
    (∃ k, decodeStarts code k n = some (boundaries n cs)) ↔ ∀ c ∈ cs, c.Whole := by
  induction cs generalizing n with
  | nil =>
    refine iff_of_true ⟨1, ?_⟩ fun c hc => absurd hc List.not_mem_nil
    rw [decodeStarts, show code n = _ from hcode.cons.1, OpCode.ofByte?_toByte]
    rfl
  | cons c cs ih =>
    rw [List.forall_mem_cons] at hhalt ⊢
    have hop : code n = c.op.toByte := hcode.cons.1
    have hrest :
        StandsAt code (n + 1 + c.operands.length) (encode cs ++ [OpCode.opHalt.toByte]) := by
      have hbytes : encode (c :: cs) ++ [OpCode.opHalt.toByte] =
          (c.op.toByte :: c.operands) ++ (encode cs ++ [OpCode.opHalt.toByte]) := by
        simp only [encode, List.cons_append, List.append_assoc]
      rw [hbytes] at hcode
      have htail := hcode.append.2
      rwa [List.length_cons, Nat.add_comm c.operands.length 1, ← Nat.add_assoc] at htail
    rw [← ih hrest hhalt.2]
    constructor
    · rintro ⟨k, hk⟩
      cases k with
      | zero => cases hk
      | succ k =>
        rw [decodeStarts_op hop hhalt.1] at hk
        obtain ⟨l, hl, hcons⟩ := Option.map_eq_some_iff.mp hk
        have hl' : l = boundaries (n + 1 + c.operands.length) cs := (List.cons.inj hcons).2
        -- both lists tell where the next instruction begins
        obtain ⟨l₁, rfl⟩ := decodeStarts_head hl
        obtain ⟨l₂, hl₂⟩ := boundaries_head (n + 1 + c.operands.length) cs
        have hnext := (List.cons.inj (hl'.trans hl₂)).1
        have hwhole : c.Whole := by
          unfold Chunk.Whole
          omega
        refine ⟨hwhole, k, ?_⟩
        rw [← hl', ← hl, hwhole]
    · rintro ⟨hwhole, k, hk⟩
      refine ⟨k + 1, ?_⟩
      rw [decodeStarts_op hop hhalt.1, ← show c.operands.length = c.op.width from hwhole, hk]
      rfl

end Decode

/-! ## Names that are read -/

/-- Every name that the expression reads is in the table. -/
def Expr.Found (t : VarTable) (e : Expr) : Prop :=
  e.ForAll (fun _ => True) (fun x => (t.lookup x).isSome = true)

mutual

/-- Every name that is read is in the table at that point of the walk. -/
def Stmt.Found (t : VarTable) : Stmt → Prop
  | .assign _ e => e.Found t
  | .print e => e.Found t
  | .ifStmt c b => c.Found t ∧ Stmt.FoundAll t b
  | .whileStmt c b => c.Found t ∧ Stmt.FoundAll t b

def Stmt.FoundAll (t : VarTable) : List Stmt → Prop
  | [] => True
  | s :: ss => s.Found t ∧ Stmt.FoundAll (t.declareAll s.assigned) ss

end

/-- No operand is missing in the code of an expression exactly when every name it reads is in the
table. -/
theorem exprChunks_whole_iff (t : VarTable) (e : Expr) :
    (∀ c ∈ exprChunks t e, c.Whole) ↔ e.Found t := by
  unfold Expr.Found
  induction e with
  | num v => exact iff_of_true (List.forall_mem_singleton.mpr rfl) trivial
  | ident x =>
    rw [exprChunks, List.forall_mem_singleton, Expr.ForAll]
    unfold Chunk.Whole
    cases t.lookup x with
    | none => exact iff_of_false Nat.zero_ne_one nofun
    | some i => exact iff_of_true rfl rfl
  | bin op l r ihl ihr =>
    rw [exprChunks, List.forall_mem_append, List.forall_mem_append, ihl, ihr,
      List.forall_mem_singleton, Expr.ForAll]
    have hop : Chunk.Whole ⟨op.opCode, []⟩ := by
      cases op <;> rfl
    rw [and_iff_left hop]

mutual

theorem stmtChunks_whole_iff : ∀ (s : Stmt) (t : VarTable) (n : Nat),
    (∀ c ∈ stmtChunks t n s, c.Whole) ↔ s.Found t
  | .assign x e, t, n => by
    rw [stmtChunks, List.forall_mem_append, exprChunks_whole_iff, List.forall_mem_singleton]
    exact and_iff_left rfl
  | .print e, t, n => by
    rw [stmtChunks, List.forall_mem_append, exprChunks_whole_iff, List.forall_mem_singleton]
    exact and_iff_left rfl
  | .ifStmt c b, t, n => by
    rw [stmtChunks, List.forall_mem_append, exprChunks_whole_iff, List.forall_mem_cons,
      stmtsChunks_whole_iff b]
    exact and_congr_right fun _ => and_iff_right rfl
  | .whileStmt c b, t, n => by
    rw [stmtChunks, List.forall_mem_append, exprChunks_whole_iff, List.forall_mem_cons,
      List.forall_mem_append, stmtsChunks_whole_iff b, List.forall_mem_singleton]
    exact and_congr_right fun _ => (and_iff_right rfl).trans (and_iff_left rfl)

theorem stmtsChunks_whole_iff : ∀ (ss : List Stmt) (t : VarTable) (n : Nat),
    (∀ c ∈ stmtsChunks t n ss, c.Whole) ↔ Stmt.FoundAll t ss
  | [], t, n => iff_of_true (fun c hc => absurd hc List.not_mem_nil) trivial
  | s :: ss, t, n => by
    rw [stmtsChunks, List.forall_mem_append, stmtChunks_whole_iff s, stmtsChunks_whole_iff ss]
    rfl

end

/-! ## `walk` emits no `OP_HALT` -/

theorem exprChunks_op_ne (t : VarTable) (e : Expr) : ∀ c ∈ exprChunks t e, c.op ≠ .opHalt := by
  induction e with
  | num v => exact List.forall_mem_singleton.mpr nofun
  | ident x => exact List.forall_mem_singleton.mpr nofun
  | bin op l r ihl ihr =>
    rw [exprChunks, List.forall_mem_append, List.forall_mem_append, List.forall_mem_singleton]
    refine ⟨ihl, ihr, ?_⟩
    cases op <;> exact nofun

mutual

theorem stmtChunks_op_ne : ∀ (s : Stmt) (t : VarTable) (n : Nat),
    ∀ c ∈ stmtChunks t n s, c.op ≠ .opHalt
  | .assign x e, t, n => by
    rw [stmtChunks, List.forall_mem_append, List.forall_mem_singleton]
    exact ⟨exprChunks_op_ne t e, nofun⟩
  | .print e, t, n => by
    rw [stmtChunks, List.forall_mem_append, List.forall_mem_singleton]
    exact ⟨exprChunks_op_ne t e, nofun⟩
  | .ifStmt c b, t, n => by
    rw [stmtChunks, List.forall_mem_append, List.forall_mem_cons]
    exact ⟨exprChunks_op_ne t c, nofun, stmtsChunks_op_ne b _ _⟩
  | .whileStmt c b, t, n => by
    rw [stmtChunks, List.forall_mem_append, List.forall_mem_cons, List.forall_mem_append,
      List.forall_mem_singleton]
    exact ⟨exprChunks_op_ne t c, nofun, stmtsChunks_op_ne b _ _, nofun⟩

/-- `OP_HALT` is emitted behind the statements only. -/
theorem stmtsChunks_op_ne : ∀ (ss : List Stmt) (t : VarTable) (n : Nat),
    ∀ c ∈ stmtsChunks t n ss, c.op ≠ .opHalt
  | [], t, n => fun c hc => absurd hc List.not_mem_nil
  | s :: ss, t, n => by
    rw [stmtsChunks, List.forall_mem_append]
    exact ⟨stmtChunks_op_ne s t n, stmtsChunks_op_ne ss _ _⟩

end

/-! ## Programs -/

/-- Decoded from 0, the code of a program consists of the instructions that `walk` began, and
ends at the `OP_HALT` behind them. -/
def DecodesAsEmitted (g : GenState) (prog : List Stmt) : Prop :=
  (∃ k, decodeStarts g.byteArray k 0 = some (boundaries 0 (stmtsChunks .empty 0 prog))) ∧
    (boundaries 0 (stmtsChunks .empty 0 prog)).getLast? = some g.byteArrayCount ∧
    g.byteArray g.byteArrayCount = OpCode.opHalt.toByte

theorem boundaries_getLast? (n : Nat) (cs : List Chunk) :
    (boundaries n cs).getLast? = some (n + (encode cs).length) := by
  induction cs generalizing n with
  | nil => rfl
  | cons c cs ih =>
    obtain ⟨l, hl⟩ := boundaries_head (n + 1 + c.operands.length) cs
    have hlast := ih (n + 1 + c.operands.length)
    rw [boundaries]
    rw [hl] at hlast ⊢
    rw [List.getLast?_cons_cons, hlast]
    simp only [encode, List.length_cons, List.length_append]
    congr 1
    omega

/-- The code of a program decodes as it was emitted exactly when each name that is read has been
assigned further up. -/
theorem generateByte_decodes_iff {mem : Nat → Byte} {statements : List Node} {len : Nat}
    {prog : List Stmt} {g : GenState} (hprog : program? statements len = some prog)
    (hg : generateByte mem .empty statements len = .ok g) :
    DecodesAsEmitted g prog ↔ Stmt.FoundAll .empty prog := by
  obtain ⟨hcount, harray, -⟩ := generateByte_eq hprog hg
  have hbytes := encode_stmtsChunks prog .empty 0
  have hcode :
      StandsAt g.byteArray 0 (encode (stmtsChunks .empty 0 prog) ++ [OpCode.opHalt.toByte]) := by
    rw [harray, hbytes]
    exact standsAt_overwrite mem 0 _
  have hlast : (boundaries 0 (stmtsChunks .empty 0 prog)).getLast? = some g.byteArrayCount := by
    rw [boundaries_getLast?, hbytes, hcount, Nat.zero_add]
  have hhalt : g.byteArray g.byteArrayCount = OpCode.opHalt.toByte := by
    have htail := hcode.append.2.cons.1
    rwa [hbytes, Nat.zero_add, ← hcount] at htail
  rw [← stmtsChunks_whole_iff prog .empty 0, ← decodeStarts_iff hcode (stmtsChunks_op_ne prog _ _)]
  exact and_iff_left ⟨hlast, hhalt⟩

/-- What the parser returns on a sentence is a program. Its code, when it fits, is generated
and decodes as it was emitted exactly when it has at most 256 variables and reads no name that
is not in the table. -/
theorem decodesAsEmitted_iff {mem : Nat → Byte} {tokens : List Token} {result : ParserResult}
    (hsentence : Sentence tokens) (hresult : ParserAt tokens result) :
    ∃ prog, program? result.statements result.statementCount = some prog ∧
      (Stmt.sizeList .empty prog + 1 ≤ byteArraySize →
        ((∃ g, generateByte mem .empty result.statements result.statementCount = .ok g ∧
          DecodesAsEmitted g prog) ↔
        (VarTable.empty.declareAll (Stmt.assignedList prog)).count ≤ 256 ∧
          Stmt.FoundAll .empty prog)) := by
  obtain ⟨prog, hprog⟩ := hsentence.exists_program hresult
  refine ⟨prog, hprog, fun hfits => ?_⟩
  have hisOk : (∃ g, generateByte mem .empty result.statements result.statementCount = .ok g) ↔ _ :=
    generateByte_isOk hprog (show 0 ≤ 256 from Nat.zero_le _)
  constructor
  · rintro ⟨g, hg, hdecodes⟩
    exact ⟨(hisOk.mp ⟨g, hg⟩).2, (generateByte_decodes_iff hprog hg).mp hdecodes⟩
  · rintro ⟨hcount, hfound⟩
    obtain ⟨g, hg⟩ := hisOk.mpr ⟨hfits, hcount⟩
    exact ⟨g, hg, (generateByte_decodes_iff hprog hg).mpr hfound⟩

/-! ## Examples -/

/-- `x = 3; print x` -/
def assignedTokens : List Token :=
  [.tokIdent .x, .tokEq, .tokNum 3, .tokPrint, .tokIdent .x, .tokEof]

/-- The code of the program above decodes as it was emitted. -/
theorem decodesAsEmitted_assigned :
    ∃ result g prog, ParserAt assignedTokens result ∧
      generateByte (fun _ => 0) .empty result.statements result.statementCount = .ok g ∧
      DecodesAsEmitted g prog := by
  have hsentence : Sentence assignedTokens :=
    ⟨_, .cons (.assign .x (.factor (.num 3))) (.cons (.print (.factor (.ident .x))) .nil), rfl⟩
  have hresult : ParserAt assignedTokens _ := ⟨10, rfl⟩
  obtain ⟨prog, hprog, hiff⟩ := decodesAsEmitted_iff hsentence hresult
  obtain rfl : [.assign .x (.num 3), .print (.ident .x)] = prog := Option.some.inj hprog
  have hfound : Stmt.FoundAll .empty [.assign .x (.num 3), .print (.ident .x)] :=
    ⟨trivial, by show (VarTable.lookup _ Name.x).isSome = true; decide, trivial⟩
  obtain ⟨g, hg, hdecodes⟩ := (hiff (by decide)).mpr ⟨by decide, hfound⟩
  exact ⟨_, g, _, hresult, hg, hdecodes⟩

/-- `print x` -/
def unassignedTokens : List Token := [.tokPrint, .tokIdent .x, .tokEof]

/-- What the parser returns on it. -/
def unassignedStatements : List Node :=
  let x : Node := { type := some .nodeIdent, name := some .x, left := .null }
  [{ type := some .nodePrint, left := .ref x, right := .null }]

/-- The operand of `OP_LOAD` is missing, and `OP_PRINT` is taken for it. -/
theorem not_decodesAsEmitted_unassigned :
    Sentence unassignedTokens ∧ ParserAt unassignedTokens ⟨unassignedStatements, 1, 2⟩ ∧
      program? unassignedStatements 1 = some [.print (.ident .x)] ∧
      ∃ g, generateByte (fun _ => 0) .empty unassignedStatements 1 = .ok g ∧
        ¬ DecodesAsEmitted g [.print (.ident .x)] := by
  have hprog : program? unassignedStatements 1 = some [.print (.ident .x)] := rfl
  have hisOk : (∃ g, generateByte (fun _ => 0) .empty unassignedStatements 1 = .ok g) ↔ _ :=
    generateByte_isOk hprog (show 0 ≤ 256 from Nat.zero_le _)
  obtain ⟨g, hg⟩ := hisOk.mpr ⟨by decide, by decide⟩
  refine ⟨⟨_, .cons (.print (.factor (.ident .x))) .nil, rfl⟩, ⟨10, rfl⟩, hprog, g, hg, ?_⟩
  rw [generateByte_decodes_iff hprog hg]
  rintro ⟨hfound, -⟩
  exact absurd (show (VarTable.lookup .empty Name.x).isSome = true from hfound) (by decide)

end Bytecode

end SystemsProjects

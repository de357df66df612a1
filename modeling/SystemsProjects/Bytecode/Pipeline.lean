import SystemsProjects.Bytecode.CompilerCorrect
import SystemsProjects.Bytecode.Layout
import SystemsProjects.Bytecode.LexerExact
import SystemsProjects.Bytecode.Spelling

/-!
# From the source text to the output (`main` of `compiler.c`)

`main` runs `lexer`, `parser`, `generate_byte` and `vm_run` one after the other, on a source text.
What `print_tokens` and the two functions of the VM write about their own work is left out.

- `compileSource`, `main`: the calls, with the ways in which each of them can stop.
- `Stmt.lowBytes`: the program that `walk` has in mind. It keeps the low byte of a literal.
- `main_correct`: on a text that spells a program, `main` does what that program does.

Each stage is used through its main theorem: lexing undoes printing, the parser returns the
program that the tokens spell, the code generator is correct on it. Between the parser and the
generator the literals lose their upper bits, and so the program whose meaning comes out is
`Stmt.lowBytes` of the one that was written.
-/

namespace SystemsProjects

namespace Bytecode

open Fueled

/-- How `main` can end before `OP_HALT`. -/
inductive MainStop where
  | lexer (e : LexerStop)
  /-- a write of `lexer` behind the end of one of its arrays -/
  | outside
  /-- a name in the token array that does not end inside its `char[32]` -/
  | name
  | parser (e : ParserStop)
  | gen (e : GenStop)
  | vm (e : VmStop) (vm : VM)

instance (r : LexerResult) (size : Nat) : Decidable (r.Inside size) :=
  decidable_of_iff ((∀ i ∈ r.tokensWritten, i < size) ∧ (∀ i ∈ r.wordWritten, i < 32) ∧
      (∀ i ∈ r.numWritten, i < 32) ∧ ∀ i ∈ r.nameWritten, i < 32)
    ⟨fun h => ⟨h.1, h.2.1, h.2.2.1, h.2.2.2⟩, fun h => ⟨h.1, h.2, h.3, h.4⟩⟩

/-- `tokens[0]` up to `tokens[token_count]`, as the parser reads them from an array with `size`
entries. -/
def LexerResult.read (r : LexerResult) (size : Nat) : Except MainStop (List Token) :=
  if r.Inside size then
    match (r.tokens.take (r.tokenCount + 1)).mapM RawToken.token? with
    | some tokens => .ok tokens
    | none => .error .name
  else
    .error .outside

/-- `main`, up to the call of `vm_init`. -/
def compileSource (n : Nat) (junk : Junk) (mem : Nat → Byte) (source : CString) :
    Fueled MainStop GenState := do
  let r ← (lexer n junk source).mapStop .lexer
  let tokens ← Fueled.ofExcept (r.read source.strlen)
  let result ← (parser n tokens).mapStop .parser
  (Fueled.ofExcept (generateByte mem .empty result.statements result.statementCount)).mapStop .gen

/-- `main`, for any source text. -/
def main (n : Nat) (junk : Junk) (mem : Nat → Byte) (source : CString) : Fueled MainStop VM := do
  let g ← compileSource n junk mem source
  (vmMachine.run n (vmInit g.byteArray byteArraySize)).mapStop fun (e, vm) => .vm e vm

/-! ## More fuel -/

/-- More fuel does not change the compiled code. -/
theorem compileSource_mono (junk : Junk) (mem : Nat → Byte) (source : CString) :
    FuelMono fun n => compileSource n junk mem source :=
  ((lexer_mono junk source).mapStop _).bind fun _ => (FuelMono.const _).bind fun _ =>
    (parser_mono.mapStop _).bind fun _ => .const _

/-! ## Low bytes -/

/-- The literals reduced to what `OP_PUSH` has room for. -/
def Expr.lowBytes : Expr → Expr
  | .num v => .num ((v.setWidth 8).setWidth 32)
  | .ident x => .ident x
  | .bin op l r => .bin op l.lowBytes r.lowBytes

mutual

def Stmt.lowBytes : Stmt → Stmt
  | .assign x e => .assign x e.lowBytes
  | .print e => .print e.lowBytes
  | .ifStmt c b => .ifStmt c.lowBytes (Stmt.lowBytesAll b)
  | .whileStmt c b => .whileStmt c.lowBytes (Stmt.lowBytesAll b)

def Stmt.lowBytesAll : List Stmt → List Stmt
  | [] => []
  | s :: ss => s.lowBytes :: Stmt.lowBytesAll ss

end

/-- The code of an expression depends on the low bytes of its literals only. -/
theorem exprCode_lowBytes (t : VarTable) (e : Expr) : exprCode t e.lowBytes = exprCode t e := by
  induction e with
  | num v => simp [Expr.lowBytes, exprCode]
  | ident x => rfl
  | bin op l r ihl ihr => rw [Expr.lowBytes, exprCode, exprCode, ihl, ihr]

mutual

/-- Cutting the literals leaves the names alone. -/
theorem Stmt.assigned_lowBytes : ∀ s : Stmt, s.lowBytes.assigned = s.assigned
  | .assign _ _ => rfl
  | .print _ => rfl
  | .ifStmt _ b => Stmt.assignedList_lowBytesAll b
  | .whileStmt _ b => Stmt.assignedList_lowBytesAll b

theorem Stmt.assignedList_lowBytesAll : ∀ ss : List Stmt,
    Stmt.assignedList (Stmt.lowBytesAll ss) = Stmt.assignedList ss
  | [] => rfl
  | s :: ss => by
    rw [Stmt.lowBytesAll, Stmt.assignedList, Stmt.assignedList, Stmt.assigned_lowBytes s,
      Stmt.assignedList_lowBytesAll ss]

end

mutual

/-- `walk` does not tell a literal from its low byte. -/
theorem stmtCode_lowBytes : ∀ (s : Stmt) (t : VarTable) (start : Nat),
    stmtCode t start s.lowBytes = stmtCode t start s
  | .assign x e, t, start => by rw [Stmt.lowBytes, stmtCode, stmtCode, exprCode_lowBytes]
  | .print e, t, start => by rw [Stmt.lowBytes, stmtCode, stmtCode, exprCode_lowBytes]
  | .ifStmt c b, t, start => by
    rw [Stmt.lowBytes, stmtCode, stmtCode, exprCode_lowBytes, stmtsCode_lowBytesAll b]
  | .whileStmt c b, t, start => by
    rw [Stmt.lowBytes, stmtCode, stmtCode, exprCode_lowBytes, stmtsCode_lowBytesAll b]

/-- The code of a program depends on the low bytes of its literals only. -/
theorem stmtsCode_lowBytesAll : ∀ (ss : List Stmt) (t : VarTable) (start : Nat),
    stmtsCode t start (Stmt.lowBytesAll ss) = stmtsCode t start ss
  | [], t, start => rfl
  | s :: ss, t, start => by
    rw [Stmt.lowBytesAll, stmtsCode, stmtsCode, stmtCode_lowBytes s, Stmt.assigned_lowBytes s,
      stmtsCode_lowBytesAll ss]

end

/-! ## The calls, one by one -/

/-- On a written list `lexer` stays inside its arrays, when one character is absorbed. -/
theorem Printing.lexer_inside (p : Printing) (hroom : Absorbs p.source.chars) {junk : Junk}
    {f : Lexing} (hf : LexesTo (junk.start p.source) f) : f.finish.Inside p.source.strlen := by
  have hlexical := (exists_printing_iff p.source).mp ⟨p, rfl⟩
  obtain ⟨n, hloop⟩ := hf
  obtain ⟨hkeeps, hend⟩ := lexLoop_keeps hloop ⟨rfl, rfl⟩
  have hstart : (junk.start p.source).BuffersInside :=
    ⟨List.forall_mem_nil _, List.forall_mem_nil _, List.forall_mem_nil _⟩
  have hbuffers := (hkeeps.buffers.mpr ⟨hstart, hlexical.short⟩).1
  -- `TOK_EOF` takes the entry of the absorbed character
  have hlt : f.tokens.pointer < p.source.strlen := by
    have habsorbs := hkeeps.absorbs
    rw [hend] at habsorbs
    have hless := (habsorbs.mp hroom).resolve_right not_absorbs_nil
    have htotal : f.total = f.tokens.pointer := by
      rw [Lexing.total, hend]
      rfl
    have hstrlen : (junk.start p.source).total = p.source.strlen := Nat.zero_add _
    rwa [htotal, hstrlen] at hless
  refine ⟨fun i hi => ?_, hbuffers.wordBuilder, hbuffers.numBuilder, hbuffers.name⟩
  rcases List.mem_append.mp hi with hi | hi
  · exact Nat.lt_trans (hkeeps.written (List.forall_mem_nil _) i hi) hlt
  · rwa [List.mem_singleton.mp hi]

theorem mapM_eq_some_of_map {xs : List RawToken} {ts : List Token}
    (h : xs.map RawToken.token? = ts.map some) : xs.mapM RawToken.token? = some ts := by
  induction xs generalizing ts with
  | nil =>
    obtain rfl := List.map_eq_nil_iff.mp h.symm
    rfl
  | cons x xs ih =>
    cases ts with
    | nil => cases h
    | cons t ts =>
      obtain ⟨hx, hxs⟩ := List.cons.inj h
      simp [List.mapM_cons, hx, ih hxs]

/-- The lexer returns on a printing that leaves room in its token array, and `main` reads the tokens
that were printed. -/
theorem Printing.read (p : Printing) (hroom : Absorbs p.source.chars) (junk : Junk) :
    ∃ r, Yields (fun n => lexer n junk p.source) r ∧
      r.read p.source.strlen = .ok (p.tokens ++ [Token.tokEof]) := by
  obtain ⟨f, hf, hlexed⟩ := p.lexed junk
  refine ⟨f.finish, hf.yields, ?_⟩
  have hread := mapM_eq_some_of_map hlexed.finish.1
  rw [LexerResult.read, if_pos (p.lexer_inside hroom hf), hread]

/-- What `main` gives to `vm_init` on a text that spells a program. -/
theorem compileSource_spells {prog : List Stmt} {p : Printing} (hroom : Absorbs p.source.chars)
    (hspells : SpellsStmts prog p.tokens) (hblocks : Stmt.AllBlocksFit prog)
    (hsize : Stmt.sizeList .empty prog + 1 ≤ 256) (junk : Junk) (mem : Nat → Byte) :
    ∃ g, Yields (fun n => compileSource n junk mem p.source) g ∧
      g.byteArray = overwrite mem 0 (stmtsCode .empty 0 prog ++ [OpCode.opHalt.toByte]) := by
  obtain ⟨r, hlexer, hread⟩ := p.read hroom junk
  have hprogram : SpellsProgram prog (p.tokens ++ [Token.tokEof]) := ⟨_, hspells, rfl⟩
  rcases hprogram.collects with ⟨-, result, hparser, hbuilt, hcount, -⟩ | ⟨hnot, -⟩
  · have hprog : program? result.statements result.statementCount = some prog := by
      rw [program?, hcount]
      exact hbuilt.nodesRead.stmtsUpTo?
    obtain ⟨g, hg, hbytes⟩ := generateByte_yields mem hprog hsize
    refine ⟨g, ?_, hbytes⟩
    refine Yields.bind ((lexer_mono junk p.source).mapStop _) (fun _ => (FuelMono.const _).bind
      fun _ => (parser_mono.mapStop _).bind fun _ => .const _) (Yields.mapStop_iff.mpr hlexer) ?_
    simp only [hread, Fueled.ofExcept, done_bind]
    refine Yields.bind (parser_mono.mapStop _) (fun _ => .const _)
      (Yields.mapStop_iff.mpr hparser) ?_
    simp only [hg, mapStop]
    exact Yields.const
  · exact absurd hblocks hnot

/-! ## From the text to the output -/

/-- On a text that spells a program, `main` ends as `vm_run` does on the code of the program. -/
theorem main_fuelEq {prog : List Stmt} {p : Printing} (hroom : Absorbs p.source.chars)
    (hspells : SpellsStmts prog p.tokens) (hblocks : Stmt.AllBlocksFit prog)
    (hsize : Stmt.sizeList .empty prog + 1 ≤ 256) (junk : Junk) (mem : Nat → Byte) :
    FuelEq (fun n => main n junk mem p.source) fun n =>
      (vmMachine.run n (vmInit (overwrite mem 0
        (stmtsCode .empty 0 prog ++ [OpCode.opHalt.toByte])) byteArraySize)).mapStop
          fun (e, vm) => .vm e vm := by
  obtain ⟨g, hg, hbytes⟩ := compileSource_spells hroom hspells hblocks hsize junk mem
  rw [← hbytes]
  exact hg.fuelEq_bind (compileSource_mono junk mem p.source) fun g =>
    (Machine.run_mono _).mapStop _

/-- **From the source text to the output.** On a text that spells a program, `main` returns
exactly when the program terminates, having printed the same; it stops on a division exactly
when the program does, after the same output; and it stops in no other way. The program is the
one that `lowBytes` leaves: a literal is read modulo 256. -/
theorem main_correct {prog : List Stmt} {p : Printing} (hroom : Absorbs p.source.chars)
    (hspells : SpellsStmts prog p.tokens) (hblocks : Stmt.AllBlocksFit prog)
    (hcompilable : Stmt.AllCompilable [] (Stmt.lowBytesAll prog))
    (hsize : Stmt.sizeList .empty prog + 1 ≤ 256) (junk : Junk) (mem : Nat → Byte) :
    (∀ P, (∃ vm, Yields (fun n => main n junk mem p.source) vm ∧ vm.printed = P) ↔
      ∃ S, Terminates (Stmt.lowBytesAll prog) P S) ∧
    (∀ i P, (∃ vm, Faults (fun n => main n junk mem p.source) (.vm i.vmStop vm) ∧
        vm.printed = P) ↔ Stops (Stmt.lowBytesAll prog) i P) ∧
    ∀ e, Faults (fun n => main n junk mem p.source) e →
      ∃ i vm, e = .vm (SourceStop.vmStop i) vm := by
  -- on this text `main` is the machine on the code of the program
  have hmain := main_fuelEq hroom hspells hblocks hsize junk mem
  have hfit : (stmtsCode .empty 0 (Stmt.lowBytesAll prog)).length + 1 ≤ 256 := by
    rw [stmtsCode_lowBytesAll, stmtsCode_length]
    exact hsize
  -- and the machine does what the source does, for any number of rounds
  have hreal := program_realised mem hcompilable hfit
  rw [stmtsCode_lowBytesAll] at hreal
  have hrest : ∀ σ vm, Halted (VarTable.empty.declareAll
      (Stmt.assignedList (Stmt.lowBytesAll prog))) σ vm → vmMachine.running vm = false :=
    fun σ vm h => h.1
  refine ⟨fun P => ⟨?_, ?_⟩, fun i P => ⟨?_, ?_⟩, fun e he => ?_⟩
  · rintro ⟨vm, hvm, hprinted⟩
    have hhalts : vmMachine.HaltsIn _ vm := Yields.mapStop_iff.mp (hmain.yields_iff.mp hvm)
    obtain ⟨σ, ⟨n, hn⟩, -, hprinted', -⟩ := Machine.halts_realised hreal hrest hhalts
    obtain rfl : P = σ.printed := hprinted.symm.trans hprinted'
    exact ⟨σ.store, n, hn⟩
  · rintro ⟨S, n, hn⟩
    have hrun := hreal n
    dsimp only at hn
    rw [hn] at hrun
    obtain ⟨k, vm, hreach, hstop, hprinted, -⟩ := hrun
    exact ⟨vm, hmain.yields_iff.mpr (Yields.mapStop_iff.mpr (hreach.haltsIn hstop)), hprinted⟩
  · rintro ⟨vm, hvm, rfl⟩
    obtain ⟨⟨e, vm'⟩, hfault, heq⟩ := Faults.mapStop_iff.mp (hmain.faults_iff.mp hvm)
    obtain ⟨rfl, rfl⟩ := MainStop.vm.inj heq
    obtain ⟨⟨j, P⟩, ⟨n, hn⟩, he, hprinted⟩ := Machine.faults_realised hreal hrest hfault
    have hij : i = j := by
      cases i <;> cases j <;> first | rfl | cases he
    rw [hij, hprinted]
    exact ⟨n, hn⟩
  · rintro ⟨n, hn⟩
    have hrun := hreal n
    rw [hn] at hrun
    obtain ⟨k, vm, e, hreach, hrunning, hstep, rfl, hprinted⟩ := hrun
    have hfault : vmMachine.FaultsIn _ i.vmStop vm := hreach.faultsIn hrunning hstep
    exact ⟨vm, hmain.faults_iff.mpr (Faults.mapStop_iff.mpr ⟨_, hfault, rfl⟩), hprinted⟩
  · obtain ⟨⟨e, vm⟩, hfault, rfl⟩ := Faults.mapStop_iff.mp (hmain.faults_iff.mp he)
    obtain ⟨⟨j, P⟩, -, rfl, -⟩ := Machine.faults_realised hreal hrest hfault
    exact ⟨j, vm, rfl⟩

/-! ## The text of `main` -/

theorem isIdentifier_x : Name.x.IsIdentifier :=
  ⟨⟨'x', [], rfl, rfl, List.forall_mem_nil _⟩, by simp [Name.x, keywords]⟩

theorem blank_space : ∀ c ∈ [' '], isspace c = true := by simp [isspace]

theorem blank_line : ∀ c ∈ ['\n'], isspace c = true := by simp [isspace]

/-- A digit of the text. -/
theorem spells_digit {d : Char} {v : CInt} (hd : isdigit d = true)
    (hv : BitVec.ofNat 32 (decimal [d]) = v) (hsmall : decimal [d] ≤ 2147483647) :
    Spells (.tokNum v) [d] := by
  subst hv
  exact .num (List.cons_ne_nil _ _) (by simpa using hd) (Nat.le_add_left ..) hsmall

/-- `"x = 3\nwhile x > 0 \x7b\nprint x\nx = x - 1\n\x7d"` -/
def mainPrinting : Printing where
  lead := []
  lexemes :=
    [⟨.tokIdent .x, ['x'], [' '], .ident isIdentifier_x, blank_space⟩,
     ⟨.tokEq, ['='], [' '], .sign rfl, blank_space⟩,
     ⟨.tokNum 3, ['3'], ['\n'], spells_digit rfl rfl (by decide), blank_line⟩,
     ⟨.tokWhile, ['w', 'h', 'i', 'l', 'e'], [' '], .sign rfl, blank_space⟩,
     ⟨.tokIdent .x, ['x'], [' '], .ident isIdentifier_x, blank_space⟩,
     ⟨.tokGt, ['>'], [' '], .sign rfl, blank_space⟩,
     ⟨.tokNum 0, ['0'], [' '], spells_digit rfl rfl (by decide), blank_space⟩,
     ⟨.tokLbrace, ['\x7b'], ['\n'], .sign rfl, blank_line⟩,
     ⟨.tokPrint, ['p', 'r', 'i', 'n', 't'], [' '], .sign rfl, blank_space⟩,
     ⟨.tokIdent .x, ['x'], ['\n'], .ident isIdentifier_x, blank_line⟩,
     ⟨.tokIdent .x, ['x'], [' '], .ident isIdentifier_x, blank_space⟩,
     ⟨.tokEq, ['='], [' '], .sign rfl, blank_space⟩,
     ⟨.tokIdent .x, ['x'], [' '], .ident isIdentifier_x, blank_space⟩,
     ⟨.tokMinus, ['-'], [' '], .sign rfl, blank_space⟩,
     ⟨.tokNum 1, ['1'], ['\n'], spells_digit rfl rfl (by decide), blank_line⟩,
     ⟨.tokRbrace, ['\x7d'], [], .sign rfl, List.forall_mem_nil _⟩]
  blank := List.forall_mem_nil _
  apart := by simp [Lexeme.Apart, needsGap]

/-- The text spells the program. -/
theorem mainPrinting_spells : SpellsStmts mainProgram mainPrinting.tokens := by
  have hx : SpellsChain (.ident .x, []) [.tokIdent .x] := .factor (.ident .x)
  have hcond := SpellsChain.binary .gt hx (.num 0)
  have hless := SpellsChain.binary .sub hx (.num 1)
  have hbody := SpellsStmts.cons (.print hx) (.cons (.assign .x hless) .nil)
  exact .cons (.assign .x (.factor (.num 3))) (.cons (.whileStmt hcond hbody) .nil)

/-- The text of `main` prints 3, 2, 1. -/
theorem main_prints : ∃ vm, Yields (fun n => main n zeroJunk (fun _ => 0) mainPrinting.source) vm ∧
    vm.printed = [3, 2, 1] := by
  have hprints : (match Stmt.execList 4 (Stmt.lowBytesAll mainProgram) .init with
      | .done σ => σ.printed
      | _ => []) = [3, 2, 1] := by decide +kernel
  have hroom : Absorbs mainPrinting.source.chars := .inl ⟨' ', by decide, by decide⟩
  refine ((main_correct hroom mainPrinting_spells ⟨trivial, ⟨by decide, trivial, trivial, trivial⟩,
    trivial⟩ (by decide) (by decide) zeroJunk fun _ => 0).1 [3, 2, 1]).mpr ?_
  cases hrun : Stmt.execList 4 (Stmt.lowBytesAll mainProgram) .init with
  | done σ =>
    rw [hrun] at hprints
    rw [← hprints]
    exact ⟨σ.store, 4, hrun⟩
  | stop i =>
    rw [hrun] at hprints
    cases hprints
  | out =>
    rw [hrun] at hprints
    cases hprints

end Bytecode

end SystemsProjects

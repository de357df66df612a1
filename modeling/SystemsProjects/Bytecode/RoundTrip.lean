import SystemsProjects.Bytecode.Spelling

/-!
# Parsing undoes printing

A program is printed with every binary expression in its own parentheses and every
block in braces. The printed tokens spell the program, so on them, followed by the end of
the file, `parser` returns it (`parser_printProgram`).

With its parentheses, a printed expression is a single factor to the parser, so the precedences
play no part and the tree comes back as it was. The blocks must have at most 128 statements
each, the places of the array that their nodes go to.
-/

namespace SystemsProjects

namespace Bytecode

/-! ## Printing -/

/-- An expression with every binary sub-expression in parentheses. -/
def Expr.print : Expr → List Token
  | .num v => [.tokNum v]
  | .ident x => [.tokIdent x]
  | .bin op l r => Token.tokLparen :: (l.print ++ op.token :: r.print) ++ [Token.tokRparen]

mutual

/-- A statement, its block in braces. -/
def Stmt.tokens : Stmt → List Token
  | .assign x e => .tokIdent x :: .tokEq :: e.print
  | .print e => .tokPrint :: e.print
  | .ifStmt c b => .tokIf :: (c.print ++ .tokLbrace :: (Stmt.tokensList b ++ [.tokRbrace]))
  | .whileStmt c b =>
    .tokWhile :: (c.print ++ .tokLbrace :: (Stmt.tokensList b ++ [.tokRbrace]))

/-- Statements one after the other. -/
def Stmt.tokensList : List Stmt → List Token
  | [] => []
  | s :: ss => s.tokens ++ Stmt.tokensList ss

end

/-- A printed program, up to the end of the file. -/
def printProgram (prog : List Stmt) : List Token := Stmt.tokensList prog ++ [.tokEof]

/-! ## Expressions -/

/-- A printed expression is a single factor. -/
theorem Expr.print_spells (e : Expr) : SpellsFactor e e.print := by
  induction e with
  | num v => exact .num v
  | ident x => exact .ident x
  | bin op l r ihl ihr =>
    have h := SpellsFactor.paren (.binary op (.factor ihl) ihr)
    have htree : Chain.tree (l, [] ++ [(op, r)]) = .bin op l r := by
      cases op <;> rfl
    rw [htree] at h
    exact h

/-! ## Statements -/

mutual

/-- A printed statement spells the statement. -/
theorem Stmt.tokens_spells : ∀ s : Stmt, SpellsStmt s s.tokens
  | .assign x e => .assign x (.factor e.print_spells)
  | .print e => .print (.factor e.print_spells)
  | .ifStmt c b => .ifStmt (.factor c.print_spells) (Stmt.tokensList_spells b)
  | .whileStmt c b => .whileStmt (.factor c.print_spells) (Stmt.tokensList_spells b)

/-- The printed tokens of statements spell them. -/
theorem Stmt.tokensList_spells : ∀ ss : List Stmt, SpellsStmts ss (Stmt.tokensList ss)
  | [] => .nil
  | s :: ss => .cons s.tokens_spells (Stmt.tokensList_spells ss)

end

/-! ## Programs -/

/-- The top-level loop on printed statements; the array is never too small. -/
theorem Stmt.tokensList_parserLoopAt {tokens rest : List Token} (ss : List Stmt) (capacity : Nat)
    (statements : List Node) (count : Nat) {i : Nat} (hfit : Stmt.AllBlocksFit ss)
    (hpos : 0 < capacity) (hcap : count ≤ capacity)
    (hdrop : tokens.drop i = Stmt.tokensList ss ++ (Token.tokEof :: rest)) :
    ∃ nodes, ParserLoopAt tokens capacity statements count i
        ⟨statements ++ nodes, count + ss.length, i + (Stmt.tokensList ss).length⟩ ∧
      NodesRead nodes ss := by
  rcases (Stmt.tokensList_spells ss).parserLoop_collects capacity statements count hpos hcap hdrop
    with ⟨_, _, hyields, nodes, hnodes, rfl⟩ | ⟨hnot, _⟩
  · exact ⟨nodes, hyields, hnodes.nodesRead⟩
  · exact absurd hfit hnot

/-- **Parsing undoes printing.** On the printed form of a program whose blocks have
at most 128 statements each, `parser` returns the program, its length, and leaves
the cursor on the end of the file. -/
theorem parser_printProgram (prog : List Stmt) (hfit : Stmt.AllBlocksFit prog) :
    ∃ result, ParserAt (printProgram prog) result ∧
      program? result.statements result.statementCount = some prog ∧
      result.statementCount = prog.length ∧
      (printProgram prog)[result.cursor]? = some .tokEof ∧
      result.cursor + 1 = (printProgram prog).length := by
  have hdrop : (printProgram prog).drop 0 = Stmt.tokensList prog ++ (Token.tokEof :: []) := rfl
  obtain ⟨nodes, hloop, hnodes⟩ := Stmt.tokensList_parserLoopAt prog 128 [] 0 hfit
    (by decide) (by decide) hdrop
  rw [List.nil_append, Nat.zero_add, Nat.zero_add] at hloop
  refine ⟨_, hloop, hnodes.stmtsUpTo?, rfl, ?_, ?_⟩
  · have hend := getElem?_of_drop (drop_of_drop hdrop)
    rwa [Nat.zero_add] at hend
  · rw [printProgram, List.length_append]
    rfl

/-- The program of `main`, with its loop. -/
theorem parser_printProgram_main :
    ∃ result, ParserAt (printProgram mainProgram) result ∧
      program? result.statements result.statementCount = some mainProgram ∧
      result.statementCount = 2 ∧
      (printProgram mainProgram)[result.cursor]? = some .tokEof ∧
      result.cursor + 1 = (printProgram mainProgram).length :=
  parser_printProgram mainProgram
    ⟨trivial, ⟨by decide, trivial, trivial, trivial⟩, trivial⟩

end Bytecode

end SystemsProjects

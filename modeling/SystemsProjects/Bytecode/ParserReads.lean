import SystemsProjects.Bytecode.ParserProgress

/-!
# Reading behind the end of the file

The parser consumes the tokens in the places of `)`, `{` and `}` without looking at them, and
reads one token ahead. Where such a place is the end of the file, it steps over it.

- `HeadAt.resume_eq`: what the parser does from the start on is what it does at any statement
  that it comes to.
- `Enclosed.of_inside`: a statement that is not enclosed leads behind the end.
- `inside_of_enclosed`: when all are enclosed, the parser stays inside, by induction on the
  tokens that are left.
- `parser_inside_iff`: when no token behind the end of the file is read.

Here it is one fault that counts, so a run that never ends is inside the list and one that exits
is too. The positions are those of `ParserProgress`; what must hold at each of them is
`Enclosed`, which asks for less than `Passable`: an identifier without `=` keeps the parser
inside, since it goes round in place.
-/

namespace SystemsProjects

namespace Bytecode

open Fueled

variable {tokens : List Token} {i j d : Nat}

/-- No amount of fuel makes the run read behind the last token. -/
def Inside {α : Type} (f : Nat → Fueled ParserStop α) : Prop :=
  ∀ n i, f n ≠ .stop (.readPastEnd i)

/-- A function below one that stays inside stays inside. -/
theorem Inside.of_fuelLe {α : Type} {f g : Nat → Fueled ParserStop α} (hg : Inside g)
    (h : FuelLe f g) : Inside f := by
  intro n i hn
  obtain ⟨m, hm⟩ := h.stop hn
  exact hg m i hm

/-! ## Leaving the list -/

/-- From the start the parser does what it does at any statement it comes to. -/
theorem HeadAt.resume_eq (h : HeadAt tokens i d) :
    FuelEq (fun n => parserCursor n tokens 0) (fun n => resume n tokens d i) := by
  induction h with
  | start => exact .refl _
  | close _ ht ih => exact ih.trans (resume_close ht)
  | assign _ hx heq hcmp ih =>
    refine ih.trans (resume_of_yields hx ?_ (statementCursor_assign hx heq hcmp))
    exact ne_closing (fun h => by cases h) (fun h => by cases h) _
  | print _ ht hcmp ih =>
    exact ih.trans (resume_of_yields ht (ne_closing (by decide) (by decide) _)
      (statementCursor_print ht hcmp))
  | block _ ht hkey hcmp ih => exact ih.trans (resume_block ht hkey hcmp)

/-- A statement that reads behind the end, in the parser. -/
theorem not_inside_of_statement {t : Token} {n k : Nat} (ht : tokens[i]? = some t)
    (hne : t ≠ closing d) (h : statementCursor n tokens i = .stop (.readPastEnd k)) :
    ¬ Inside fun n => resume n tokens d i := by
  intro hinside
  have hrest : (fun n => statementCursor n tokens i >>= fun j => resume n tokens d j) n =
      .stop (.readPastEnd k) := by
    dsimp only
    rw [h]
    rfl
  obtain ⟨m, hm⟩ := (resume_statement ht hne).2.stop hrest
  exact hinside m k hm

/-- Where the parser stays inside the list, the statement is enclosed. -/
theorem Enclosed.of_inside (h : Inside fun n => resume n tokens d i) : Enclosed tokens i := by
  refine ⟨fun x hx heq => ?_, fun ht => ?_, fun t ht hkey => ?_⟩
  · rcases @looseCmp_or_readsPastEnd tokens (i + 2) with hcmp | ⟨n, k, hn⟩
    · exact hcmp
    · refine absurd h (not_inside_of_statement (n := n + 1) (k := k) hx
        (ne_closing (fun h => by cases h) (fun h => by cases h) d) ?_)
      rw [statementCursor_succ, tokenAt_eq hx, done_bind]
      dsimp only
      rw [tokenAt_eq heq, done_bind]
      dsimp only
      rw [hn]
      rfl
  · rcases @looseCmp_or_readsPastEnd tokens (i + 1) with hcmp | ⟨n, k, hn⟩
    · exact hcmp
    · refine absurd h (not_inside_of_statement (n := n + 1) (k := k) ht
        (ne_closing (by decide) (by decide) d) ?_)
      rw [statementCursor_succ, tokenAt_eq ht, done_bind]
      dsimp only
      rw [hn]
      rfl
  · have hne := ne_closing_of_key hkey d
    rcases @looseCmp_or_readsPastEnd tokens (i + 1) with ⟨j, hcmp⟩ | ⟨n, k, hn⟩
    · refine ⟨j, hcmp, ?_⟩
      by_contra hlen
      -- the token in the place of the brace is the last one, and the body begins behind it
      have hbody : ∀ n, bodyCursor (n + 1) tokens (j + 1) = .stop (.readPastEnd (j + 1)) := by
        intro n
        rw [bodyCursor_succ, tokenAt, List.getElem?_eq_none (Nat.le_of_not_lt hlen)]
        rfl
      have hresume : resume 1 tokens (d + 1) (j + 1) = .stop (.readPastEnd (j + 1)) := by
        rw [resume, hbody 0]
        rfl
      obtain ⟨m, hm⟩ := (resume_block (d := d) ht hkey hcmp).2.stop hresume
      exact h m _ hm
    · have hcond : (fun n => parseComparison n tokens (i + 1) >>= fun r =>
          bodyCursor n tokens (r.2 + 1) >>= fun j => (.done (j + 1) : Fueled ParserStop Nat)) n =
            .stop (.readPastEnd k) := by
        dsimp only
        rw [hn]
        rfl
      obtain ⟨m, hm⟩ := (statementCursor_block ht hkey).2.stop hcond
      exact absurd h (not_inside_of_statement ht hne hm)

/-! ## Staying inside -/

/-- When all statements are enclosed the parser stays inside, by induction on the tokens that
are left. -/
theorem inside_of_enclosed (heof : tokens.getLast? = some .tokEof)
    (hall : ∀ i d, HeadAt tokens i d → Enclosed tokens i) (m : Nat) :
    ∀ i d, tokens.length ≤ i + m → i < tokens.length → HeadAt tokens i d →
      Inside fun n => resume n tokens d i := by
  induction m with
  | zero =>
    intro i d hlen hlt _
    omega
  | succ m ih =>
    intro i d hlen hlt hhead
    cases (hall i d hhead).next heof hlt hhead with
    | moves hij hj hhead' h => exact (ih _ _ (by omega) hj hhead').of_fuelLe h.1
    | ends h =>
      refine Inside.of_fuelLe (g := fun _ => .done i) (fun _ _ hn => ?_) h.1
      cases hn
    | exits message h =>
      refine Inside.of_fuelLe (g := fun _ => .stop (.exit message)) (fun _ _ hn => ?_) h.1
      cases hn
    | stuck h =>
      -- the identifier and the token behind it are read again and again
      obtain ⟨x, hx, hne⟩ := h
      have hlt' := succ_lt_length heof hx (fun h => by cases h)
      have ht := List.getElem?_eq_getElem hlt'
      intro n k hn
      dsimp only at hn
      rw [resume_stuck hx ht (fun h => hne (ht.trans (congrArg some h))) n] at hn
      cases hn

/-- **When no token behind the end of the file is read.** On a token list that ends with the end
of the file, the parser stays inside the list exactly when every statement it comes to is
enclosed. The cursor goes on at a missing return value and at the end of an array of nodes; the
parser with its trees reads no more than the cursor. -/
theorem parser_inside_iff (heof : tokens.getLast? = some .tokEof) :
    ((Inside fun n => parserCursor n tokens 0) ↔
      ∀ i d, HeadAt tokens i d → Enclosed tokens i) ∧
    ((Inside fun n => parserCursor n tokens 0) → Inside fun n => parser n tokens) := by
  refine ⟨⟨fun hinside i d hhead => ?_, fun hall => ?_⟩, fun hinside n i hn => ?_⟩
  · exact .of_inside (hinside.of_fuelLe hhead.resume_eq.2)
  · have hlt : 0 < tokens.length := List.length_pos_iff.mpr (by rintro rfl; cases heof)
    exact inside_of_enclosed heof hall tokens.length 0 0 (by omega) hlt .start
  · have hfollows := @parserCursor_follows tokens n
    dsimp only at hn
    rw [hn] at hfollows
    generalize hc : parserCursor n tokens 0 = c at hfollows
    cases hfollows
    exact hinside n i hc

/-- On `print (1` the parser reads the token behind the end of the file. -/
theorem parser_not_inside_paren : ¬ ∀ tokens : List Token, tokens.getLast? = some .tokEof →
    (∀ i, tokens[i]? = some .tokEof → i + 1 = tokens.length) →
    Inside fun n => parser n tokens := by
  intro hall
  refine hall [.tokPrint, .tokLparen, .tokNum 1, .tokEof] rfl (fun i hi => ?_) 10 4 rfl
  have hlt : i < 4 := by
    by_contra hge
    rw [List.getElem?_eq_none (by simpa using hge)] at hi
    cases hi
  obtain rfl | rfl | rfl | rfl : i = 0 ∨ i = 1 ∨ i = 2 ∨ i = 3 := by omega
  · cases hi
  · cases hi
  · cases hi
  · rfl

/-- On `if x { print (1 + x) }` it does not: the parenthesis and the block are closed. -/
theorem parser_inside_branch :
    (Inside fun n => parserCursor n branchTokens 0) ∧
      (¬ ∃ i d, HeadAt branchTokens i d ∧ ¬ Enclosed branchTokens i) ∧
      Inside fun n => parser n branchTokens := by
  have hiff := @parser_inside_iff branchTokens rfl
  have hdone : Yields (fun n => parserCursor n branchTokens 0) 10 := ⟨20, rfl⟩
  have hinside : Inside fun n => parserCursor n branchTokens 0 :=
    fun n i => hdone.not_stop (parserCursor_mono 0)
  refine ⟨hinside, ?_, hiff.2 hinside⟩
  rintro ⟨i, d, hhead, hnot⟩
  exact hnot (hiff.1.mp hinside i d hhead)

end Bytecode

end SystemsProjects

import SystemsProjects.Bytecode.Language

/-!
# The expression functions always end

`parse_comparison`, `parse_expression`, `parse_term` and `parse_factor` end at every
position of every token list: they return, or they read behind the last token. The one
path on which nothing is consumed, a factor that is missing, cannot be repeated: whoever
asks for a factor has consumed an operator, a parenthesis or the head of a statement.

- `parse_readsPastEnd`: the only fault of the four functions is a read behind the end.
- `LooseCmp.le`, `parseComparison_le`: the cursor never goes back.
- `loop_ends`, `level_ends`: a loop over operators ends when its operands do.
- `parse_ends`: the four functions end, by induction on the tokens that are left.

The induction is on the number of tokens that are left, and inside it the four functions are
taken from the inside out: a factor either consumes a token or is missing, a term is a factor
and a loop, and so on up to a comparison (`ParseEnds.of_factor`). A missing factor leaves the
cursor where it was, so the loops must be seen to advance by their operators alone
(`loop_ends`).
-/

namespace SystemsProjects

namespace Bytecode

open Fueled

variable {tokens : List Token}

/-! ## Faults -/

/-- The only fault of the expression functions is a read behind the last token. -/
def ReadsPastEnd {α : Type} (r : Fueled ParserStop α) : Prop :=
  ∀ e, r = .stop e → ∃ i, e = .readPastEnd i

theorem ReadsPastEnd.bind {α β : Type} {r : Fueled ParserStop α}
    {k : α → Fueled ParserStop β} (h : ReadsPastEnd r) (hk : ∀ a, ReadsPastEnd (k a)) :
    ReadsPastEnd (r >>= k) := by
  cases r with
  | done a => exact hk a
  | stop e =>
    intro e' he
    exact h e' (by cases he; rfl)
  | out =>
    intro e he
    cases he

theorem readsPastEnd_done {α : Type} (a : α) :
    ReadsPastEnd (.done a : Fueled ParserStop α) := by
  intro e he
  cases he

theorem readsPastEnd_out {α : Type} : ReadsPastEnd (.out : Fueled ParserStop α) := by
  intro e he
  cases he

/-- A read of a token is where the fault comes from. -/
theorem readsPastEnd_tokenAt (i : Nat) : ReadsPastEnd (tokenAt tokens i) := by
  unfold tokenAt
  cases tokens[i]? with
  | none =>
    intro e he
    cases he
    exact ⟨i, rfl⟩
  | some t => exact readsPastEnd_done t

/-- The loop over the operators of one level, given its operands. -/
theorem readsPastEnd_binaryLoop {nodeOf : Token → Option NodeType} {operand : Nat → Parsed}
    (hoperand : ∀ i, ReadsPastEnd (operand i)) (n : Nat) (left : Node) (i : Nat) :
    ReadsPastEnd (binaryLoop nodeOf operand tokens n left i) := by
  induction n generalizing left i with
  | zero => exact readsPastEnd_out
  | succ n ih =>
    rw [binaryLoop]
    refine (readsPastEnd_tokenAt i).bind fun t => ?_
    cases nodeOf t with
    | none => exact readsPastEnd_done _
    | some type => exact (hoperand _).bind fun r => ih _ _

/-- The four functions together, by induction on the fuel. -/
theorem parse_readsPastEnd (n : Nat) :
    (∀ i, ReadsPastEnd (parseComparison n tokens i)) ∧
    (∀ i, ReadsPastEnd (parseExpression n tokens i)) ∧
    (∀ i, ReadsPastEnd (parseTerm n tokens i)) ∧
    (∀ i, ReadsPastEnd (parseFactor n tokens i)) := by
  induction n with
  | zero =>
    exact ⟨fun i => readsPastEnd_out, fun i => readsPastEnd_out, fun i => readsPastEnd_out,
      fun i => readsPastEnd_out⟩
  | succ n ih =>
    obtain ⟨hcomparison, hexpression, hterm, hfactor⟩ := ih
    refine ⟨fun i => ?_, fun i => ?_, fun i => ?_, fun i => ?_⟩
    · -- the fault comes from a token that is read, whichever function reads it
      rw [parseComparison]
      exact (hexpression i).bind fun r => readsPastEnd_binaryLoop hexpression n _ _
    · rw [parseExpression]
      exact (hterm i).bind fun r => readsPastEnd_binaryLoop hterm n _ _
    · rw [parseTerm]
      exact (hfactor i).bind fun r => readsPastEnd_binaryLoop hexpression n _ _
    · rw [parseFactor_succ]
      refine (readsPastEnd_tokenAt i).bind fun t => ?_
      cases t with
      | tokLparen => exact (hcomparison _).bind fun r => readsPastEnd_done _
      | _ => exact readsPastEnd_done _

/-! ## The cursor never goes back -/

mutual

theorem LooseFactor.le {i j : Nat} : LooseFactor tokens i j → i ≤ j
  | .ident _ => Nat.le_succ _
  | .num _ => Nat.le_succ _
  | .paren _ hcmp => by
    have := hcmp.le
    omega
  | .missing _ _ => Nat.le_refl _

theorem LooseRun.le {k j : Nat} : LooseRun tokens k j → k ≤ j
  | .nil _ => Nat.le_refl _
  | .cons _ hfactor hrest => by
    have := hfactor.le
    have := hrest.le
    omega

theorem LooseCmp.le {i j : Nat} : LooseCmp tokens i j → i ≤ j
  | .chain hfactor hrun _ _ => by
    have := hfactor.le
    have := hrun.le
    omega

end

theorem LoosePhrase.le {Q : Token → Prop} {i j : Nat} (h : LoosePhrase tokens Q i j) :
    i ≤ j := by
  obtain ⟨k, t, hfactor, hrun, -, -⟩ := h
  exact Nat.le_trans hfactor.le hrun.le

/-- A comparison ends in front of a token of the list. -/
theorem LooseCmp.lt_length {i j : Nat} (h : LooseCmp tokens i j) : j < tokens.length := by
  obtain ⟨-, -, hend, -⟩ := h
  exact (List.getElem?_eq_some_iff.mp hend).1

/-! ## The functions end -/

section Ends

variable {nodeOf : Token → Option NodeType} {operand : Nat → Nat → Parsed}

/-- A loop ends when its operands do, by induction on the tokens that are left: each round
consumes the operator. -/
theorem loop_ends (hop : ∀ i, FuelMono fun n => operand n i) {i : Nat}
    (hends : ∀ k, i < k → Ends fun n => operand n k)
    (hle : ∀ n k r, operand n k = .done r → k ≤ r.2) (m : Nat) :
    ∀ left j, i ≤ j → tokens.length ≤ j + m →
      Ends fun n => binaryLoop nodeOf (operand n) tokens n left j := by
  induction m with
  | zero =>
    intro left j _ hlen
    refine ⟨1, ?_⟩
    have hnone : tokens[j]? = none := List.getElem?_eq_none (by omega)
    show binaryLoop nodeOf (operand 1) tokens 1 left j ≠ .out
    rw [binaryLoop, tokenAt, hnone]
    exact stop_ne_out _
  | succ m ih =>
    intro left j hij hlen
    cases ht : tokens[j]? with
    | none =>
      refine ⟨1, ?_⟩
      show binaryLoop nodeOf (operand 1) tokens 1 left j ≠ .out
      rw [binaryLoop, tokenAt, ht]
      exact stop_ne_out _
    | some t =>
      cases hnode : nodeOf t with
      | none => exact (LoopAt.exit ht hnode).ends
      | some type =>
        have hright : Ends fun n => operand (n + 1) (j + 1) :=
          (hends (j + 1) (by omega)).of_approx (hop (j + 1))
        have hrest : ∀ r : Node × Nat, Yields (fun n => operand (n + 1) (j + 1)) r →
            Ends fun n => binaryLoop nodeOf (operand (n + 1)) tokens n
              (binaryNode type left r.1) r.2 := by
          -- the operand has moved the cursor, so that fewer tokens are left
          rintro r ⟨n, hn⟩
          have hprogress := hle _ _ _ hn
          refine (ih (binaryNode type left r.1) r.2 (by omega) (by omega)).of_approx fun n => ?_
          exact binaryLoop_approx nodeOf (fun i => hop i n) (Nat.le_refl n) _ _
        refine .succ (fun n => ?_)
          (hright.bind (fun n => hop (j + 1) (n + 1)) (fun r n => ?_) hrest)
        · rw [binaryLoop, tokenAt_eq ht, done_bind, hnode]
        · exact binaryLoop_approx nodeOf (fun i => hop i (n + 1)) (Nat.le_succ n) _ _

/-- A level of the grammar ends when its first operand does, and all operands behind it. -/
theorem level_ends {first level : Nat → Parsed} {i : Nat}
    (hlevel : ∀ n, level (n + 1) =
      first n >>= fun r => binaryLoop nodeOf (operand n) tokens n r.1 r.2)
    (hfirst : FuelMono first) (hop : ∀ i, FuelMono fun n => operand n i)
    (hfirst_ends : Ends first) (hfirst_le : ∀ n r, first n = .done r → i ≤ r.2)
    (hends : ∀ k, i < k → Ends fun n => operand n k)
    (hle : ∀ n k r, operand n k = .done r → k ≤ r.2) : Ends level := by
  refine .succ hlevel (hfirst_ends.bind (k := fun (r : Node × Nat) n =>
    binaryLoop nodeOf (operand n) tokens n r.1 r.2) hfirst
    (fun r => binaryLoop_mono hop r.1 r.2) ?_)
  rintro r ⟨n, hn⟩
  exact loop_ends hop hends hle tokens.length r.1 r.2 (hfirst_le n r hn) (by omega)

end Ends

theorem parseComparison_le {n i : Nat} {r : Node × Nat}
    (h : parseComparison n tokens i = .done r) : i ≤ r.2 :=
  ((parse_loose n).1 i r h).le

theorem parseExpression_le {n i : Nat} {r : Node × Nat}
    (h : parseExpression n tokens i = .done r) : i ≤ r.2 :=
  ((parse_loose n).2.1 i r h).le

theorem parseTerm_le {n i : Nat} {r : Node × Nat} (h : parseTerm n tokens i = .done r) :
    i ≤ r.2 :=
  ((parse_loose n).2.2.1 i r h).le

theorem parseFactor_le {n i : Nat} {r : Node × Nat} (h : parseFactor n tokens i = .done r) :
    i ≤ r.2 :=
  ((parse_loose n).2.2.2 i r h).le

/-- The four expression functions end at `i`. -/
structure ParseEnds (tokens : List Token) (i : Nat) : Prop where
  comparison : Ends fun n => parseComparison n tokens i
  expression : Ends fun n => parseExpression n tokens i
  term : Ends fun n => parseTerm n tokens i
  factor : Ends fun n => parseFactor n tokens i

/-- From a factor that ends on: its level, the levels above it and so a whole comparison end. -/
theorem ParseEnds.of_factor {i : Nat} (hfactor : Ends fun n => parseFactor n tokens i)
    (hlater : ∀ k, i < k → ParseEnds tokens k) : ParseEnds tokens i := by
  have hterm : Ends fun n => parseTerm n tokens i :=
    level_ends (fun _ => rfl) (parseFactor_mono i) parseExpression_mono hfactor
      (fun _ _ => parseFactor_le) (fun k hk => (hlater k hk).expression)
      fun _ _ _ => parseExpression_le
  have hexpression : Ends fun n => parseExpression n tokens i :=
    level_ends (fun _ => rfl) (parseTerm_mono i) parseTerm_mono hterm (fun _ _ => parseTerm_le)
      (fun k hk => (hlater k hk).term) fun _ _ _ => parseTerm_le
  have hcomparison : Ends fun n => parseComparison n tokens i :=
    level_ends (fun _ => rfl) (parseExpression_mono i) parseExpression_mono hexpression
      (fun _ _ => parseExpression_le) (fun k hk => (hlater k hk).expression)
      fun _ _ _ => parseExpression_le
  exact ⟨hcomparison, hexpression, hterm, hfactor⟩

/-- Behind the last token all four stop at once. -/
theorem parseEnds_behind {i : Nat} (h : tokens.length ≤ i) : ParseEnds tokens i := by
  have hnone : tokens[i]? = none := List.getElem?_eq_none h
  have hfactor : parseFactor 1 tokens i = .stop (.readPastEnd i) := by
    rw [parseFactor_succ, tokenAt, hnone]
    rfl
  have hterm : parseTerm 2 tokens i = .stop (.readPastEnd i) := by
    rw [parseTerm, hfactor]
    rfl
  have hexpression : parseExpression 3 tokens i = .stop (.readPastEnd i) := by
    rw [parseExpression, hterm]
    rfl
  have hcomparison : parseComparison 4 tokens i = .stop (.readPastEnd i) := by
    rw [parseComparison, hexpression]
    rfl
  exact ⟨.of_stop hcomparison, .of_stop hexpression, .of_stop hterm, .of_stop hfactor⟩

/-- The expression functions end at every position of every token list, by induction on the
tokens that are left. A factor that consumes nothing does no harm: every loop round behind
it consumes an operator. -/
theorem parse_ends (m : Nat) : ∀ i, tokens.length ≤ i + m → ParseEnds tokens i := by
  induction m with
  | zero => exact fun i hlen => parseEnds_behind hlen
  | succ m ih =>
    intro i hlen
    -- everything further back ends
    have hlater : ∀ k, i < k → ParseEnds tokens k := fun k hk => ih k (by omega)
    refine .of_factor ?_ hlater
    cases ht : tokens[i]? with
    | none => exact (parseEnds_behind (List.getElem?_eq_none_iff.mp ht)).factor
    | some t =>
      cases t with
      | tokLparen =>
        -- a parenthesis consumes a token before the comparison inside is parsed
        refine .succ (g := fun n => parseComparison n tokens (i + 1) >>= fun r =>
          .done (r.1, r.2 + 1)) (fun n => ?_) ?_
        · rw [parseFactor_succ, tokenAt_eq ht, done_bind]
        · exact (hlater (i + 1) (Nat.lt_succ_self i)).comparison.bind (parseComparison_mono _)
            (fun r n => .refl _) fun r _ => Yields.const.ends
      | _ =>
        -- any other token ends the factor at once
        refine ⟨1, ?_⟩
        show parseFactor 1 tokens i ≠ .out
        rw [parseFactor_succ, tokenAt_eq ht, done_bind]
        exact done_ne_out _

/-- A comparison either ends inside the token list or reads behind its last token. -/
theorem looseCmp_or_readsPastEnd (i : Nat) : (∃ j, LooseCmp tokens i j) ∨
    ∃ n k, parseComparison n tokens i = .stop (.readPastEnd k) := by
  have hlen : tokens.length ≤ i + tokens.length := by omega
  obtain ⟨n, hn⟩ := (parse_ends tokens.length i hlen).comparison
  cases hr : parseComparison n tokens i with
  | done r => exact .inl ⟨r.2, (parse_loose n).1 i r hr⟩
  | out => exact absurd hr hn
  | stop e =>
    obtain ⟨k, rfl⟩ := (parse_readsPastEnd n).1 i e hr
    exact .inr ⟨n, k, hr⟩

end Bytecode

end SystemsProjects

import SystemsProjects.Bytecode.ExpressionEnds

/-!
# Where the parser stops

`parse_statement` has no `return` on one path: at an identifier that is not followed by
`=`. There it comes back with whatever is in the return register and with the cursor where
it was, and the loop that called it calls it again at the same token. This file follows
the cursor through the parser with that path taken as it is; the trees, and the arrays they
are stored in, are left out.

- `statementCursor`, `parserCursor`: where `parse_statement` and `parser` leave the cursor.
  `parserCursor_follows`: this is the cursor of the parser with its trees, until that stops
  at a missing return value or at the end of an array of nodes.
- `HeadAt`: the positions at which the parser looks for a statement, each with the number
  of blocks that are open there.
- `parser_stops_iff`: when `parser` returns or exits, and which calls of `parse_statement`
  advance the cursor.

What the parser has still to do at a position is a family of its own (`resume`): the rest
of the open blocks, then the rest of the program. Each kind of statement leads from one
such family to another with the same answers.

The proof of `parser_stops_iff` goes along the positions `HeadAt`. At a statement that is
`Passable` the parser comes to the next position, with fewer tokens left, and so it ends. At any
other it goes `Astray`: it reads behind the last token, or it stays where it is for ever, since
the loop calls `parse_statement` again at the same token.
-/

namespace SystemsProjects

namespace Bytecode

open Fueled

/-! ## The cursor -/

mutual

/-- Where `parse_statement` leaves the cursor. -/
def statementCursor : Nat → List Token → Nat → Fueled ParserStop Nat
  | 0, _, _ => .out
  | n + 1, tokens, i => do
    match ← tokenAt tokens i with
    | .tokIdent _ =>
      match ← tokenAt tokens (i + 1) with
      | .tokEq =>
        let (_, i) ← parseComparison n tokens (i + 2)
        return i
      -- the end of the function is reached without a `return`
      | _ => return i
    | .tokPrint =>
      let (_, i) ← parseComparison n tokens (i + 1)
      return i
    | .tokIf => blockCursor n tokens i
    | .tokWhile => blockCursor n tokens i
    | _ => .stop (.exit "AAAAAAAAAAA")
  termination_by structural n => n

/-- The part `if` and `while` share. -/
def blockCursor : Nat → List Token → Nat → Fueled ParserStop Nat
  | 0, _, _ => .out
  | n + 1, tokens, i => do
    let (_, i) ← parseComparison n tokens (i + 1)
    let i ← bodyCursor n tokens (i + 1)
    return i + 1
  termination_by structural n => n

/-- The body loop: statements up to the next `}`. -/
def bodyCursor : Nat → List Token → Nat → Fueled ParserStop Nat
  | 0, _, _ => .out
  | n + 1, tokens, i => do
    match ← tokenAt tokens i with
    | .tokRbrace => return i
    | _ => bodyCursor n tokens (← statementCursor n tokens i)
  termination_by structural n => n

end

/-- The loop of `parser`: statements up to the end of the file. -/
def parserCursor : Nat → List Token → Nat → Fueled ParserStop Nat
  | 0, _, _ => .out
  | n + 1, tokens, i => do
    match ← tokenAt tokens i with
    | .tokEof => return i
    | _ => parserCursor n tokens (← statementCursor n tokens i)

variable {tokens : List Token}

/-! ### Unfolding one level -/

theorem statementCursor_succ (n i : Nat) :
    statementCursor (n + 1) tokens i = tokenAt tokens i >>= fun t =>
      match t with
      | .tokIdent _ => tokenAt tokens (i + 1) >>= fun t' =>
        match t' with
        | .tokEq => parseComparison n tokens (i + 2) >>= fun r => .done r.2
        | _ => .done i
      | .tokPrint => parseComparison n tokens (i + 1) >>= fun r => .done r.2
      | .tokIf => blockCursor n tokens i
      | .tokWhile => blockCursor n tokens i
      | _ => .stop (.exit "AAAAAAAAAAA") := rfl

theorem blockCursor_succ (n i : Nat) :
    blockCursor (n + 1) tokens i = parseComparison n tokens (i + 1) >>= fun r =>
      bodyCursor n tokens (r.2 + 1) >>= fun j => .done (j + 1) := rfl

theorem bodyCursor_succ (n i : Nat) :
    bodyCursor (n + 1) tokens i = tokenAt tokens i >>= fun t =>
      match t with
      | .tokRbrace => .done i
      | _ => statementCursor n tokens i >>= bodyCursor n tokens := rfl

theorem parserCursor_succ (n i : Nat) :
    parserCursor (n + 1) tokens i = tokenAt tokens i >>= fun t =>
      match t with
      | .tokEof => .done i
      | _ => statementCursor n tokens i >>= parserCursor n tokens := rfl

/-! ### Monotonicity -/

/-- One more unit of fuel changes no result: the three functions together, by induction. -/
theorem cursor_approx (n : Nat) :
    (∀ i, Approx (statementCursor n tokens i) (statementCursor (n + 1) tokens i)) ∧
    (∀ i, Approx (blockCursor n tokens i) (blockCursor (n + 1) tokens i)) ∧
    (∀ i, Approx (bodyCursor n tokens i) (bodyCursor (n + 1) tokens i)) := by
  induction n with
  | zero => exact ⟨fun i => .out_left _, fun i => .out_left _, fun i => .out_left _⟩
  | succ n ih =>
    obtain ⟨hstatement, hblock, hbody⟩ := ih
    refine ⟨fun i => ?_, fun i => ?_, fun i => ?_⟩
    · -- the same cases as in the parser with its trees
      rw [statementCursor_succ, statementCursor_succ]
      refine .bind (.refl _) fun t => ?_
      cases t with
      | tokIdent x =>
        refine .bind (.refl _) fun t' => ?_
        cases t' with
        | tokEq => exact .bind (parseComparison_mono _ n) fun r => .refl _
        | _ => exact .refl _
      | tokPrint => exact .bind (parseComparison_mono _ n) fun r => .refl _
      | tokIf => exact hblock i
      | tokWhile => exact hblock i
      | _ => exact .refl _
    · rw [blockCursor_succ, blockCursor_succ]
      exact .bind (parseComparison_mono _ n) fun r => .bind (hbody _) fun j => .refl _
    · rw [bodyCursor_succ, bodyCursor_succ]
      refine .bind (.refl _) fun t => ?_
      cases t with
      | tokRbrace => exact .refl _
      | _ => exact .bind (hstatement i) fun j => hbody j

theorem statementCursor_mono (i : Nat) : FuelMono fun n => statementCursor n tokens i :=
  fun n => (cursor_approx n).1 i

theorem bodyCursor_mono (i : Nat) : FuelMono fun n => bodyCursor n tokens i :=
  fun n => (cursor_approx n).2.2 i

/-- More fuel does not change where the cursor ends. -/
theorem parserCursor_mono (i : Nat) : FuelMono fun n => parserCursor n tokens i := by
  intro n
  induction n generalizing i with
  | zero => exact .out_left _
  | succ n ih =>
    show Approx (parserCursor (n + 1) tokens i) (parserCursor (n + 1 + 1) tokens i)
    rw [parserCursor_succ, parserCursor_succ]
    refine .bind (.refl _) fun t => ?_
    cases t with
    | tokEof => exact .refl _
    | _ => exact .bind (statementCursor_mono i n) fun j => ih j

/-! ## The cursor of the parser with its trees -/

/-- `c` is the cursor's part of the run `p`, unless `p` stops for a missing return value or
at the end of an array of nodes. -/
inductive Follows {α : Type} (cursor : α → Nat) :
    Fueled ParserStop α → Fueled ParserStop Nat → Prop
  | done (a : α) : Follows cursor (.done a) (.done (cursor a))
  | out : Follows cursor .out .out
  | exit (message : String) :
    Follows cursor (.stop (.exit message)) (.stop (.exit message))
  | readPastEnd (i : Nat) : Follows cursor (.stop (.readPastEnd i)) (.stop (.readPastEnd i))
  | noReturnValue (c : Fueled ParserStop Nat) : Follows cursor (.stop .noReturnValue) c
  | bodyOverflow (i : Nat) (c : Fueled ParserStop Nat) :
    Follows cursor (.stop (.bodyOverflow i)) c
  | statementsOverflow (i : Nat) (c : Fueled ParserStop Nat) :
    Follows cursor (.stop (.statementsOverflow i)) c

section Follows

variable {α β : Type} {cursor : α → Nat} {cursor' : β → Nat}

/-- What follows step by step follows as a whole. -/
theorem Follows.bind {p : Fueled ParserStop α} {c : Fueled ParserStop Nat}
    {k : α → Fueled ParserStop β} {k' : Nat → Fueled ParserStop Nat} (h : Follows cursor p c)
    (hk : ∀ a, Follows cursor' (k a) (k' (cursor a))) :
    Follows cursor' (p >>= k) (c >>= k') := by
  cases h with
  | done a => exact hk a
  | out => exact .out
  | exit message => exact .exit message
  | readPastEnd i => exact .readPastEnd i
  | noReturnValue c => exact .noReturnValue _
  | bodyOverflow i c => exact .bodyOverflow i _
  | statementsOverflow i c => exact .statementsOverflow i _

/-- Both runs begin with the same read of a token. -/
theorem Follows.tokenAt (i : Nat) {k : Token → Fueled ParserStop α}
    {k' : Token → Fueled ParserStop Nat} (hk : ∀ t, Follows cursor (k t) (k' t)) :
    Follows cursor (tokenAt tokens i >>= k) (tokenAt tokens i >>= k') := by
  unfold Bytecode.tokenAt
  cases tokens[i]? with
  | none => exact .readPastEnd i
  | some t => exact hk t

/-- Both runs begin with the same comparison. -/
theorem Follows.comparison {n i : Nat} {k : Node × Nat → Fueled ParserStop α}
    {k' : Node × Nat → Fueled ParserStop Nat} (hk : ∀ r, Follows cursor (k r) (k' r)) :
    Follows cursor (parseComparison n tokens i >>= k) (parseComparison n tokens i >>= k') := by
  cases hr : parseComparison n tokens i with
  | done r => exact hk r
  | out => exact .out
  | stop e =>
    obtain ⟨j, rfl⟩ := (parse_readsPastEnd n).1 i e hr
    exact .readPastEnd j

end Follows

/-- The functions with their trees move the cursor as those without, by induction on the fuel. -/
theorem statementCursor_follows (n : Nat) :
    (∀ i, Follows Prod.snd (parseStatement n tokens i) (statementCursor n tokens i)) ∧
    (∀ type i, Follows Prod.snd (parseBlockStatement type n tokens i)
      (blockCursor n tokens i)) ∧
    (∀ body ptr i, Follows (fun b => b.2.2) (parseBody n tokens body ptr i)
      (bodyCursor n tokens i)) := by
  induction n with
  | zero => exact ⟨fun i => .out, fun type i => .out, fun body ptr i => .out⟩
  | succ n ih =>
    obtain ⟨hstatement, hblock, hbody⟩ := ih
    refine ⟨fun i => ?_, fun type i => ?_, fun body ptr i => ?_⟩
    · rw [parseStatement_succ, statementCursor_succ]
      -- the same token is read, and it leads to the same calls
      refine .tokenAt i fun t => ?_
      cases t with
      | tokIdent x =>
        refine .tokenAt (i + 1) fun t' => ?_
        cases t' with
        | tokEq => exact .comparison fun r => .done _
        | _ => exact .noReturnValue _
      | tokPrint => exact .comparison fun r => .done _
      | tokIf => exact hblock .nodeIf i
      | tokWhile => exact hblock .nodeWhile i
      | _ => exact .exit _
    · rw [parseBlockStatement, blockCursor_succ]
      exact .comparison fun r => (hbody [] 0 (r.2 + 1)).bind fun b => .done _
    · rw [parseBody_succ, bodyCursor_succ]
      refine .tokenAt i fun t => ?_
      cases t with
      | tokRbrace => exact .done (body, ptr, i)
      | _ =>
        refine (hstatement i).bind fun r => ?_
        -- where the array of the body is full, only the parser with its trees stops
        by_cases hp : ptr < 128
        · rw [if_pos hp]
          exact hbody _ _ _
        · rw [if_neg hp]
          exact .bodyOverflow _ _

/-- The cursor of `parser`, as long as no missing return value and no end of an array comes
into play. -/
theorem parserCursor_follows (n : Nat) :
    Follows ParserResult.cursor (parser n tokens) (parserCursor n tokens 0) := by
  suffices hloop : ∀ capacity statements count i, Follows ParserResult.cursor
      (parserLoop n tokens capacity statements count i) (parserCursor n tokens i) from
    hloop 128 [] 0 0
  induction n with
  | zero => exact fun capacity statements count i => .out
  | succ n ih =>
    intro capacity statements count i
    rw [parserLoop_succ, parserCursor_succ]
    refine .tokenAt i fun t => ?_
    cases t with
    | tokEof => exact Follows.done (ParserResult.mk statements count i)
    | _ =>
      refine ((statementCursor_follows n).1 i).bind fun r => ?_
      by_cases hc : count < (if count = capacity then capacity * 2 else capacity)
      · rw [if_pos hc]
        exact ih _ _ _ _
      · rw [if_neg hc]
        exact .statementsOverflow _ _

/-! ## What is still to be done -/

/-- The rest of `d` open blocks, then the rest of the program. -/
def resume (n : Nat) (tokens : List Token) : Nat → Nat → Fueled ParserStop Nat
  | 0, i => parserCursor n tokens i
  | d + 1, i => bodyCursor n tokens i >>= fun j => resume n tokens d (j + 1)

/-- More fuel does not change how the loops go on. -/
theorem resume_mono (d i : Nat) : FuelMono fun n => resume n tokens d i := by
  induction d generalizing i with
  | zero => exact parserCursor_mono i
  | succ d ih => exact fun n => .bind (bodyCursor_mono i n) fun j => ih (j + 1) n

/-- The token at which the innermost loop ends. -/
def closing : Nat → Token
  | 0 => .tokEof
  | _ + 1 => .tokRbrace

/-- A loop is closed by `}` or by the end of the file. -/
theorem ne_closing {t : Token} (hbrace : t ≠ .tokRbrace) (heof : t ≠ .tokEof) (d : Nat) :
    t ≠ closing d := by
  cases d with
  | zero => exact heof
  | succ d => exact hbrace

theorem ne_closing_of_key {t : Token} (hkey : t = .tokIf ∨ t = .tokWhile) (d : Nat) :
    t ≠ closing d := by
  rcases hkey with rfl | rfl
  · exact ne_closing (by decide) (by decide) d
  · exact ne_closing (by decide) (by decide) d

/-- A round of the body loop that is not its last. -/
theorem bodyCursor_of_ne {n i : Nat} {t : Token} (ht : tokens[i]? = some t)
    (hne : t ≠ .tokRbrace) :
    bodyCursor (n + 1) tokens i = statementCursor n tokens i >>= bodyCursor n tokens := by
  rw [bodyCursor_succ, tokenAt_eq ht, done_bind]
  cases t with
  | tokRbrace => exact absurd rfl hne
  | _ => rfl

/-- A round of the loop of `parser` that is not its last. -/
theorem parserCursor_of_ne {n i : Nat} {t : Token} (ht : tokens[i]? = some t)
    (hne : t ≠ .tokEof) :
    parserCursor (n + 1) tokens i = statementCursor n tokens i >>= parserCursor n tokens := by
  rw [parserCursor_succ, tokenAt_eq ht, done_bind]
  cases t with
  | tokEof => exact absurd rfl hne
  | _ => rfl

/-- Where no loop ends, a statement is parsed and the same is still to be done behind it. -/
theorem resume_statement {d i : Nat} {t : Token} (ht : tokens[i]? = some t)
    (hne : t ≠ closing d) :
    FuelEq (fun n => resume n tokens d i)
      (fun n => statementCursor n tokens i >>= fun j => resume n tokens d j) := by
  cases d with
  | zero => exact .succ (parserCursor_mono i) fun n => parserCursor_of_ne ht hne
  | succ d =>
    have hbody : FuelEq (fun n => bodyCursor n tokens i)
        (fun n => statementCursor n tokens i >>= fun j => bodyCursor n tokens j) :=
      .succ (bodyCursor_mono i) fun n => bodyCursor_of_ne ht hne
    have hrest := hbody.bind_left (k := fun j n => resume n tokens d (j + 1))
      (bodyCursor_mono i) ((statementCursor_mono i).bind bodyCursor_mono)
      fun j => resume_mono d (j + 1)
    have hassoc : (fun n => (statementCursor n tokens i >>= fun j => bodyCursor n tokens j) >>=
        fun j => resume n tokens d (j + 1)) =
        fun n => statementCursor n tokens i >>= fun j => resume n tokens (d + 1) j :=
      funext fun n => Fueled.bind_assoc _ _ _
    rw [hassoc] at hrest
    exact hrest

/-- A statement that leaves the cursor at `j` passes on what is to be done. -/
theorem resume_of_yields {d i j : Nat} {t : Token} (ht : tokens[i]? = some t)
    (hne : t ≠ closing d) (hj : Yields (fun n => statementCursor n tokens i) j) :
    FuelEq (fun n => resume n tokens d i) (fun n => resume n tokens d j) :=
  (resume_statement ht hne).trans (hj.fuelEq_bind (statementCursor_mono i) (resume_mono d))

/-- Over an assignment, from the name to the end of the comparison. -/
theorem statementCursor_assign {i j : Nat} {x : Name} (hx : tokens[i]? = some (.tokIdent x))
    (heq : tokens[i + 1]? = some .tokEq) (hcmp : LooseCmp tokens (i + 2) j) :
    Yields (fun n => statementCursor n tokens i) j := by
  obtain ⟨node, n, hn⟩ := hcmp.comparisonAt
  refine ⟨n + 1, ?_⟩
  show statementCursor (n + 1) tokens i = .done j
  rw [statementCursor_succ, tokenAt_eq hx, done_bind]
  dsimp only
  rw [tokenAt_eq heq, done_bind]
  dsimp only
  rw [show parseComparison n tokens (i + 2) = .done (node, j) from hn, done_bind]

/-- Over a `print`, to the end of the comparison. -/
theorem statementCursor_print {i j : Nat} (ht : tokens[i]? = some .tokPrint)
    (hcmp : LooseCmp tokens (i + 1) j) : Yields (fun n => statementCursor n tokens i) j := by
  obtain ⟨node, n, hn⟩ := hcmp.comparisonAt
  refine ⟨n + 1, ?_⟩
  show statementCursor (n + 1) tokens i = .done j
  rw [statementCursor_succ, tokenAt_eq ht, done_bind]
  dsimp only
  rw [show parseComparison n tokens (i + 1) = .done (node, j) from hn, done_bind]

/-- Two levels down, a block is its condition, one token, its body and one token. -/
theorem statementCursor_block {i : Nat} {t : Token} (ht : tokens[i]? = some t)
    (hkey : t = .tokIf ∨ t = .tokWhile) :
    FuelEq (fun n => statementCursor n tokens i)
      (fun n => parseComparison n tokens (i + 1) >>= fun r =>
        bodyCursor n tokens (r.2 + 1) >>= fun j => .done (j + 1)) := by
  have hblock : FuelEq (fun n => statementCursor n tokens i)
      (fun n => blockCursor n tokens i) := by
    refine .succ (statementCursor_mono i) fun n => ?_
    rw [statementCursor_succ, tokenAt_eq ht, done_bind]
    rcases hkey with rfl | rfl
    · rfl
    · rfl
  exact hblock.trans (.succ (fun n => (cursor_approx n).2.1 i) fun n => rfl)

/-- An `if` or `while` opens a block. -/
theorem resume_block {d i j : Nat} {t : Token} (ht : tokens[i]? = some t)
    (hkey : t = .tokIf ∨ t = .tokWhile) (hcmp : LooseCmp tokens (i + 1) j) :
    FuelEq (fun n => resume n tokens d i) (fun n => resume n tokens (d + 1) (j + 1)) := by
  have hne := ne_closing_of_key hkey d
  obtain ⟨node, hnode⟩ := hcmp.comparisonAt
  have htail : ∀ k, FuelMono fun n => bodyCursor n tokens (k + 1) >>= fun j =>
      (.done (j + 1) : Fueled ParserStop Nat) :=
    fun k => (bodyCursor_mono (k + 1)).bind fun _ _ => .refl _
  -- the condition is read, the body is still to come
  have hbody : FuelEq (fun n => statementCursor n tokens i)
      (fun n => bodyCursor n tokens (j + 1) >>= fun k => .done (k + 1)) :=
    (statementCursor_block ht hkey).trans
      (hnode.fuelEq_bind (parseComparison_mono _) fun r => htail r.2)
  have hrest := hbody.bind_left (k := fun j n => resume n tokens d j) (statementCursor_mono i)
    (htail j) (resume_mono d)
  have hassoc : (fun n => (bodyCursor n tokens (j + 1) >>= fun k =>
      (.done (k + 1) : Fueled ParserStop Nat)) >>= fun j => resume n tokens d j) =
      fun n => resume n tokens (d + 1) (j + 1) :=
    funext fun n => Fueled.bind_assoc _ _ _
  rw [hassoc] at hrest
  exact (resume_statement ht hne).trans hrest

/-- A `}` closes the innermost block. -/
theorem resume_close {d i : Nat} (ht : tokens[i]? = some .tokRbrace) :
    FuelEq (fun n => resume n tokens (d + 1) i) (fun n => resume n tokens d (i + 1)) := by
  have hbody : Yields (fun n => bodyCursor n tokens i) i := by
    refine ⟨1, ?_⟩
    show bodyCursor 1 tokens i = .done i
    rw [bodyCursor_succ, tokenAt_eq ht, done_bind]
  exact hbody.fuelEq_bind (bodyCursor_mono i) fun j => resume_mono d (j + 1)

/-! ## Stopping -/

/-- The run has returned or called `exit`. -/
def Finished {α : Type} (r : Fueled ParserStop α) : Prop :=
  (∃ a, r = .done a) ∨ ∃ message, r = .stop (.exit message)

/-- What stops with some fuel stops in the larger function. -/
theorem finished_of_fuelLe {α : Type} {f g : Nat → Fueled ParserStop α} (h : FuelLe f g)
    (hf : ∃ n, Finished (f n)) : ∃ n, Finished (g n) := by
  obtain ⟨n, hn⟩ := hf
  obtain ⟨m, hm⟩ := h n
  refine ⟨m, ?_⟩
  rcases hn with ⟨a, ha⟩ | ⟨message, he⟩
  · exact .inl ⟨a, hm.done ha⟩
  · rcases hm with hout | heq
    · rw [hout] at he
      cases he
    · exact .inr ⟨message, by rw [← heq, he]⟩

/-- The run neither returns nor exits: it goes on, or it reads behind the last token. -/
def Astray {α : Type} (r : Fueled ParserStop α) : Prop :=
  r = .out ∨ ∃ i, r = .stop (.readPastEnd i)

theorem Astray.not_stops {α : Type} {r : Fueled ParserStop α} (h : Astray r) : ¬ Finished r := by
  rintro (⟨a, ha⟩ | ⟨message, he⟩)
  · rcases h with hr | ⟨i, hr⟩
    · rw [hr] at ha
      cases ha
    · rw [hr] at ha
      cases ha
  · rcases h with hr | ⟨i, hr⟩
    · rw [hr] at he
      cases he
    · rw [hr] at he
      cases he

theorem Astray.bind {α β : Type} {r : Fueled ParserStop α} {k : α → Fueled ParserStop β}
    (h : Astray r) : Astray (r >>= k) := by
  rcases h with rfl | ⟨i, rfl⟩
  · exact .inl rfl
  · exact .inr ⟨i, rfl⟩

/-- A function that is below one that goes astray goes astray with any fuel. -/
theorem astray_of_fuelLe {α : Type} {f g : Nat → Fueled ParserStop α} (h : FuelLe f g)
    (hg : ∀ n, Astray (g n)) (n : Nat) : Astray (f n) := by
  obtain ⟨m, hout | heq⟩ := h n
  · exact .inl hout
  · rw [heq]
    exact hg m

/-- A comparison that does not end inside the token list. -/
theorem parseComparison_astray {i : Nat} (h : ∀ j, ¬ LooseCmp tokens i j) (n : Nat) :
    Astray (parseComparison n tokens i) := by
  cases hr : parseComparison n tokens i with
  | done r => exact absurd ((parse_loose n).1 i r hr) (h r.2)
  | out => exact .inl rfl
  | stop e =>
    obtain ⟨k, rfl⟩ := (parse_readsPastEnd n).1 i e hr
    exact .inr ⟨k, rfl⟩

/-- A statement that never comes back keeps the parser from stopping. -/
theorem not_stops_of_astray {d i : Nat} {t : Token} (ht : tokens[i]? = some t)
    (hne : t ≠ closing d) (h : ∀ n, Astray (statementCursor n tokens i)) :
    ¬ ∃ n, Finished (resume n tokens d i) := by
  intro hstops
  obtain ⟨n, hn⟩ := finished_of_fuelLe (resume_statement ht hne).1 hstops
  exact (h n).bind.not_stops hn

/-- At a token that begins no statement the parser exits. -/
theorem statementCursor_exit {i : Nat} {t : Token} (ht : tokens[i]? = some t)
    (hident : ∀ x, t ≠ .tokIdent x) (hprint : t ≠ .tokPrint) (hif : t ≠ .tokIf)
    (hwhile : t ≠ .tokWhile) :
    statementCursor 1 tokens i = .stop (.exit "AAAAAAAAAAA") := by
  rw [statementCursor_succ, tokenAt_eq ht, done_bind]
  cases t with
  | tokIdent x => exact absurd rfl (hident x)
  | tokPrint => exact absurd rfl hprint
  | tokIf => exact absurd rfl hif
  | tokWhile => exact absurd rfl hwhile
  | _ => rfl

/-- At an identifier without `=` the parser goes round and round. -/
theorem resume_stuck {d i : Nat} {x : Name} {t : Token} (hx : tokens[i]? = some (.tokIdent x))
    (ht : tokens[i + 1]? = some t) (hne : t ≠ .tokEq) (n : Nat) :
    resume n tokens d i = .out := by
  -- `parse_statement` comes back with the cursor where it was
  have hstatement : ∀ n, statementCursor (n + 1) tokens i = .done i := by
    intro n
    rw [statementCursor_succ, tokenAt_eq hx, done_bind]
    dsimp only
    rw [tokenAt_eq ht, done_bind]
    cases t with
    | tokEq => exact absurd rfl hne
    | _ => rfl
  cases d with
  | zero =>
    -- so every round of the loop leads to the same one, with less fuel
    show parserCursor n tokens i = .out
    induction n with
    | zero => rfl
    | succ n ih =>
      rw [parserCursor_of_ne hx (fun h => by cases h)]
      cases n with
      | zero => rfl
      | succ n =>
        rw [hstatement n, done_bind]
        exact ih
  | succ d =>
    have hbody : bodyCursor n tokens i = .out := by
      induction n with
      | zero => rfl
      | succ n ih =>
        rw [bodyCursor_of_ne hx (fun h => by cases h)]
        cases n with
        | zero => rfl
        | succ n =>
          rw [hstatement n, done_bind]
          exact ih
    rw [resume, hbody]
    rfl

/-! ## Where statements begin -/

/-- The parser looks for a statement at `i`, inside `d` open blocks. -/
inductive HeadAt (tokens : List Token) : Nat → Nat → Prop
  | start : HeadAt tokens 0 0
  | close {i d : Nat} (h : HeadAt tokens i (d + 1)) (ht : tokens[i]? = some .tokRbrace) :
    HeadAt tokens (i + 1) d
  | assign {i d j : Nat} {x : Name} (h : HeadAt tokens i d)
    (hx : tokens[i]? = some (.tokIdent x)) (heq : tokens[i + 1]? = some .tokEq)
    (hcmp : LooseCmp tokens (i + 2) j) : HeadAt tokens j d
  | print {i d j : Nat} (h : HeadAt tokens i d) (ht : tokens[i]? = some .tokPrint)
    (hcmp : LooseCmp tokens (i + 1) j) : HeadAt tokens j d
  | block {i d j : Nat} {t : Token} (h : HeadAt tokens i d) (ht : tokens[i]? = some t)
    (hkey : t = .tokIf ∨ t = .tokWhile) (hcmp : LooseCmp tokens (i + 1) j) :
    HeadAt tokens (j + 1) (d + 1)

/-- A statement at `i` lets the parser pass: an identifier has its `=`, and the comparison,
with the token in the place of `{`, ends inside the list. -/
structure Passable (tokens : List Token) (i : Nat) : Prop where
  assign : ∀ x, tokens[i]? = some (.tokIdent x) →
    tokens[i + 1]? = some .tokEq ∧ ∃ j, LooseCmp tokens (i + 2) j
  print : tokens[i]? = some .tokPrint → ∃ j, LooseCmp tokens (i + 1) j
  block : ∀ t, tokens[i]? = some t → (t = .tokIf ∨ t = .tokWhile) →
    ∃ j, LooseCmp tokens (i + 1) j ∧ j + 1 < tokens.length

/-- At `i` stands an identifier that is not followed by `=`. -/
def FallsOff (tokens : List Token) (i : Nat) : Prop :=
  ∃ x, tokens[i]? = some (.tokIdent x) ∧ tokens[i + 1]? ≠ some .tokEq

/-- A statement at `i` keeps the parser inside the list: its comparison ends there, and so does
the token in the place of `{`. -/
structure Enclosed (tokens : List Token) (i : Nat) : Prop where
  assign : ∀ x, tokens[i]? = some (.tokIdent x) → tokens[i + 1]? = some .tokEq →
    ∃ j, LooseCmp tokens (i + 2) j
  print : tokens[i]? = some .tokPrint → ∃ j, LooseCmp tokens (i + 1) j
  block : ∀ t, tokens[i]? = some t → (t = .tokIf ∨ t = .tokWhile) →
    ∃ j, LooseCmp tokens (i + 1) j ∧ j + 1 < tokens.length

/-- A passable statement is one that keeps the parser inside and does not fall off. -/
theorem Passable.enclosed {tokens : List Token} {i : Nat} (h : Passable tokens i) :
    Enclosed tokens i ∧ ¬ FallsOff tokens i := by
  refine ⟨⟨fun x hx _ => (h.assign x hx).2, h.print, h.block⟩, ?_⟩
  rintro ⟨x, hx, hne⟩
  exact hne (h.assign x hx).1

/-- What becomes of the parser at a statement that keeps it inside: it goes on further back in
the list, it is at the end of the program, it exits, or it stays where it is. -/
inductive Next (tokens : List Token) (d i : Nat) : Prop where
  | moves {e j : Nat} (hlt : i < j) (hj : j < tokens.length) (hhead : HeadAt tokens j e)
    (h : FuelEq (fun n => resume n tokens d i) (fun n => resume n tokens e j))
  | ends (h : FuelEq (fun n => resume n tokens d i) (fun _ => .done i))
  | exits (message : String)
    (h : FuelEq (fun n => resume n tokens d i) (fun _ => .stop (.exit message)))
  | stuck (h : FallsOff tokens i)

section Heads

variable {i j d : Nat}

theorem LooseCmp.unique {j' : Nat} (h : LooseCmp tokens i j) (h' : LooseCmp tokens i j') :
    j = j' := by
  obtain ⟨node, hnode⟩ := h.comparisonAt
  obtain ⟨node', hnode'⟩ := h'.comparisonAt
  exact congrArg Prod.snd (Yields.unique (parseComparison_mono i) hnode hnode')

/-- In front of the end of the file there is one more token. -/
theorem succ_lt_length (heof : tokens.getLast? = some .tokEof) {t : Token}
    (ht : tokens[i]? = some t) (hne : t ≠ .tokEof) : i + 1 < tokens.length := by
  have hlt := (List.getElem?_eq_some_iff.mp ht).1
  by_contra hle
  have hi : i = tokens.length - 1 := by omega
  rw [List.getLast?_eq_getElem?, ← hi, ht] at heof
  exact hne (Option.some.inj heof)

/-- A body that would begin behind the last token. -/
theorem bodyCursor_astray (h : tokens.length ≤ i) (n : Nat) :
    Astray (bodyCursor n tokens i) := by
  cases n with
  | zero => exact .inl rfl
  | succ n =>
    rw [bodyCursor_succ, tokenAt, List.getElem?_eq_none h]
    exact .inr ⟨i, rfl⟩

/-- Where the parser stops, the statement was passable. -/
theorem Passable.of_stops (heof : tokens.getLast? = some .tokEof)
    (h : ∃ n, Finished (resume n tokens d i)) : Passable tokens i := by
  refine ⟨fun x hx => ?_, fun ht => ?_, fun t ht hkey => ?_⟩
  · have hlt := succ_lt_length heof hx (fun h => by cases h)
    have ht := List.getElem?_eq_getElem hlt
    have hx_closing : Token.tokIdent x ≠ closing d :=
      ne_closing (fun h => by cases h) (fun h => by cases h) d
    by_cases heq : tokens[i + 1] = .tokEq
    · rw [heq] at ht
      refine ⟨ht, ?_⟩
      by_contra hnone
      rw [not_exists] at hnone
      refine not_stops_of_astray hx hx_closing (fun n => ?_) h
      cases n with
      | zero => exact .inl rfl
      | succ n =>
        rw [statementCursor_succ, tokenAt_eq hx, done_bind]
        dsimp only
        rw [tokenAt_eq ht, done_bind]
        exact (parseComparison_astray hnone n).bind
    · obtain ⟨n, hn⟩ := h
      rw [resume_stuck hx ht heq n] at hn
      exact absurd hn (Astray.not_stops (.inl rfl))
  · by_contra hnone
    rw [not_exists] at hnone
    refine not_stops_of_astray ht (ne_closing (by decide) (by decide) d) (fun n => ?_) h
    cases n with
    | zero => exact .inl rfl
    | succ n =>
      rw [statementCursor_succ, tokenAt_eq ht, done_bind]
      exact (parseComparison_astray hnone n).bind
  · by_contra hnone
    refine not_stops_of_astray ht (ne_closing_of_key hkey d)
      (astray_of_fuelLe (statementCursor_block ht hkey).1 fun n => ?_) h
    cases hr : parseComparison n tokens (i + 1) with
    | done r =>
      -- the token after the condition is the last one
      have hcmp := (parse_loose n).1 _ _ hr
      have hlen : tokens.length ≤ r.2 + 1 := by
        by_contra hlt
        exact hnone ⟨r.2, hcmp, by omega⟩
      exact (bodyCursor_astray hlen n).bind
    | out => exact .inl rfl
    | stop e =>
      obtain ⟨k, rfl⟩ := (parse_readsPastEnd n).1 _ e hr
      exact .inr ⟨k, rfl⟩

/-- Passing a statement. -/
theorem HeadAt.stops (heof : tokens.getLast? = some .tokEof)
    (hstops : ∃ n, Finished (resume n tokens 0 0)) (h : HeadAt tokens i d) :
    i < tokens.length ∧ ∃ n, Finished (resume n tokens d i) := by
  induction h with
  | start =>
    refine ⟨List.length_pos_iff.mpr ?_, hstops⟩
    rintro rfl
    cases heof
  | close _ ht ih =>
    exact ⟨succ_lt_length heof ht (by decide), finished_of_fuelLe (resume_close ht).1 ih.2⟩
  | assign _ hx heq hcmp ih =>
    refine ⟨hcmp.lt_length, finished_of_fuelLe (resume_of_yields hx ?_
      (statementCursor_assign hx heq hcmp)).1 ih.2⟩
    exact ne_closing (fun h => by cases h) (fun h => by cases h) _
  | print _ ht hcmp ih =>
    exact ⟨hcmp.lt_length, finished_of_fuelLe (resume_of_yields ht
      (ne_closing (by decide) (by decide) _) (statementCursor_print ht hcmp)).1 ih.2⟩
  | block _ ht hkey hcmp ih =>
    obtain ⟨j', hcmp', hlt⟩ := (Passable.of_stops heof ih.2).block _ ht hkey
    obtain rfl := hcmp.unique hcmp'
    exact ⟨hlt, finished_of_fuelLe (resume_block ht hkey hcmp).1 ih.2⟩

/-- By the first token of the statement; at an enclosed one there are no other ways. -/
theorem Enclosed.next (heof : tokens.getLast? = some .tokEof) (he : Enclosed tokens i)
    (hlt : i < tokens.length) (hhead : HeadAt tokens i d) : Next tokens d i := by
  have ht := List.getElem?_eq_getElem hlt
  by_cases hclosing : tokens[i] = closing d
  -- the end of the program or of a block
  · rw [hclosing] at ht
    cases d with
    | zero =>
      have hdone : Yields (fun n => parserCursor n tokens i) i := by
        refine ⟨1, ?_⟩
        show parserCursor 1 tokens i = .done i
        rw [parserCursor_succ, tokenAt_eq ht, done_bind]
        rfl
      exact .ends (hdone.fuelEq (parserCursor_mono i))
    | succ d =>
      have hbrace : tokens[i]? = some .tokRbrace := ht
      exact .moves (Nat.lt_succ_self i) (succ_lt_length heof hbrace (by decide))
        (hhead.close hbrace) (resume_close hbrace)
  by_cases hkey : tokens[i] = .tokIf ∨ tokens[i] = .tokWhile
  · obtain ⟨j, hcmp, hlt'⟩ := he.block _ ht hkey
    have hle := hcmp.le
    exact .moves (by omega) hlt' (hhead.block ht hkey hcmp) (resume_block ht hkey hcmp)
  rw [not_or] at hkey
  by_cases hprint : tokens[i] = .tokPrint
  · have ht' := ht
    rw [hprint] at ht'
    obtain ⟨j, hcmp⟩ := he.print ht'
    have hle := hcmp.le
    exact .moves (by omega) hcmp.lt_length (hhead.print ht' hcmp)
      (resume_of_yields ht hclosing (statementCursor_print ht' hcmp))
  by_cases hident : ∃ x, tokens[i] = .tokIdent x
  · obtain ⟨x, hx⟩ := hident
    have ht' := ht
    rw [hx] at ht'
    by_cases heq : tokens[i + 1]? = some .tokEq
    · obtain ⟨j, hcmp⟩ := he.assign x ht' heq
      have hle := hcmp.le
      exact .moves (by omega) hcmp.lt_length (hhead.assign ht' heq hcmp)
        (resume_of_yields ht hclosing (statementCursor_assign ht' heq hcmp))
    · exact .stuck ⟨x, ht', heq⟩
  · -- no statement begins with this token
    have hexit := statementCursor_exit ht (fun x hx => hident ⟨x, hx⟩) hprint hkey.1 hkey.2
    have hrest : (fun n => statementCursor n tokens i >>= fun j => resume n tokens d j) 1 =
        .stop (.exit "AAAAAAAAAAA") := by
      dsimp only
      rw [hexit]
      rfl
    exact .exits _ ((resume_statement ht hclosing).trans
      (((statementCursor_mono i).bind (resume_mono d)).fuelEq_stop hrest))

/-- When all statements are passable the parser stops, by induction on the tokens that are
left. -/
theorem stops_of_passable (heof : tokens.getLast? = some .tokEof)
    (hpass : ∀ i d, HeadAt tokens i d → Passable tokens i) (m : Nat) :
    ∀ i d, tokens.length ≤ i + m → i < tokens.length → HeadAt tokens i d →
      ∃ n, Finished (resume n tokens d i) := by
  induction m with
  | zero =>
    intro i d hlen hlt _
    omega
  | succ m ih =>
    intro i d hlen hlt hhead
    obtain ⟨henclosed, hstays⟩ := (hpass i d hhead).enclosed
    cases henclosed.next heof hlt hhead with
    | moves hij hj hhead' h =>
      exact finished_of_fuelLe h.2 (ih _ _ (by omega) hj hhead')
    | ends h => exact finished_of_fuelLe h.2 ⟨0, .inl ⟨i, rfl⟩⟩
    | exits message h => exact finished_of_fuelLe h.2 ⟨0, .inr ⟨message, rfl⟩⟩
    | stuck h => exact absurd h hstays

end Heads

/-! ## Progress -/

/-- What a statement and a body do to the cursor, by induction on the fuel. -/
theorem cursor_le (n : Nat) :
    (∀ i j, statementCursor n tokens i = .done j →
      i ≤ j ∧ (FallsOff tokens i → j = i) ∧ (¬ FallsOff tokens i → i < j)) ∧
    (∀ i j, blockCursor n tokens i = .done j → i < j) ∧
    (∀ i j, bodyCursor n tokens i = .done j → i ≤ j) := by
  induction n with
  | zero =>
    refine ⟨fun i j h => ?_, fun i j h => ?_, fun i j h => ?_⟩
    · cases h
    · cases h
    · cases h
  | succ n ih =>
    obtain ⟨hstatement, hblock, hbody⟩ := ih
    refine ⟨fun i j h => ?_, fun i j h => ?_, fun i j h => ?_⟩
    · rw [statementCursor_succ] at h
      obtain ⟨t, ht, h⟩ := bind_eq_done.mp h
      rw [tokenAt_eq_done] at ht
      -- every token but an identifier is consumed
      have hconsumed : i < j → (∀ x, t ≠ .tokIdent x) →
          i ≤ j ∧ (FallsOff tokens i → j = i) ∧ (¬ FallsOff tokens i → i < j) := by
        rintro hlt hident
        refine ⟨Nat.le_of_lt hlt, ?_, fun _ => hlt⟩
        rintro ⟨x, hx, -⟩
        rw [ht] at hx
        exact absurd (Option.some.inj hx) (hident x)
      cases t with
      | tokIdent x =>
        obtain ⟨t', ht', h⟩ := bind_eq_done.mp h
        rw [tokenAt_eq_done] at ht'
        by_cases heq : t' = .tokEq
        · subst heq
          obtain ⟨r, hr, h⟩ := bind_eq_done.mp h
          obtain rfl := Fueled.done.inj h
          have hle := parseComparison_le hr
          refine ⟨by omega, ?_, fun _ => by omega⟩
          rintro ⟨-, -, hne⟩
          exact absurd ht' hne
        · have hstays : i = j := by
            cases t' with
            | tokEq => exact absurd rfl heq
            | _ => exact Fueled.done.inj h
          refine ⟨Nat.le_of_eq hstays, fun _ => hstays.symm, fun hpass => absurd ⟨x, ht, ?_⟩ hpass⟩
          rw [ht']
          exact fun h => heq (Option.some.inj h)
      | tokPrint =>
        obtain ⟨r, hr, h⟩ := bind_eq_done.mp h
        obtain rfl := Fueled.done.inj h
        have hle := parseComparison_le hr
        exact hconsumed (by omega) fun x hx => by cases hx
      | tokIf => exact hconsumed (hblock i j h) fun x hx => by cases hx
      | tokWhile => exact hconsumed (hblock i j h) fun x hx => by cases hx
      | _ => cases h
    · rw [blockCursor_succ] at h
      obtain ⟨r, hr, h⟩ := bind_eq_done.mp h
      obtain ⟨k, hk, h⟩ := bind_eq_done.mp h
      obtain rfl := Fueled.done.inj h
      have hle := parseComparison_le hr
      have hle' := hbody _ _ hk
      omega
    · rw [bodyCursor_succ] at h
      obtain ⟨t, ht, h⟩ := bind_eq_done.mp h
      by_cases hbrace : t = .tokRbrace
      · subst hbrace
        exact Nat.le_of_eq (Fueled.done.inj h)
      · have hrest : (statementCursor n tokens i >>= bodyCursor n tokens) = .done j := by
          cases t with
          | tokRbrace => exact absurd rfl hbrace
          | _ => exact h
        obtain ⟨k, hk, hk'⟩ := bind_eq_done.mp hrest
        exact Nat.le_trans (hstatement i k hk).1 (hbody k j hk')

/-- **When the parser stops.** On a token list that ends with the end of the file, `parser`
returns or exits exactly when every statement it comes to is passable; and a call of
`parse_statement` that returns has advanced the cursor unless it was made at an identifier
that is not followed by `=`. -/
theorem parser_stops_iff (heof : tokens.getLast? = some .tokEof) :
    ((∃ n, Finished (parserCursor n tokens 0)) ↔
      ∀ i d, HeadAt tokens i d → Passable tokens i) ∧
    ∀ n i j, statementCursor n tokens i = .done j → (i < j ↔ ¬ FallsOff tokens i) := by
  refine ⟨⟨fun hstops i d hhead => ?_, fun hpass => ?_⟩, fun n i j h => ?_⟩
  · exact .of_stops heof (hhead.stops heof hstops).2
  · have hlt : 0 < tokens.length := List.length_pos_iff.mpr (by rintro rfl; cases heof)
    exact stops_of_passable heof hpass tokens.length 0 0 (by omega) hlt .start
  · obtain ⟨-, hstays, hadvances⟩ := (cursor_le n).1 i j h
    exact ⟨fun hlt hfalls => by rw [hstays hfalls] at hlt; exact Nat.lt_irrefl i hlt, hadvances⟩

/-- On `x` alone the parser never stops. -/
theorem parser_not_stops_x : ¬ ∀ tokens : List Token, tokens.getLast? = some .tokEof →
    ∃ n, Finished (parserCursor n tokens 0) := by
  intro hall
  obtain ⟨n, hn⟩ := hall [.tokIdent .x, .tokEof] rfl
  have hout : parserCursor n [.tokIdent .x, .tokEof] 0 = .out :=
    resume_stuck (d := 0) rfl rfl (by decide) n
  rw [hout] at hn
  exact Astray.not_stops (.inl rfl) hn

/-- The tokens of `if x { print (1 + x) }`. -/
def branchTokens : List Token :=
  [.tokIf, .tokIdent .x, .tokLbrace, .tokPrint, .tokLparen, .tokNum 1, .tokPlus, .tokIdent .x,
    .tokRparen, .tokRbrace, .tokEof]

/-- On `if x { print (1 + x) }` it does: every statement it comes to is passable, the one in the
block too, whose call goes from `print` to the closing brace. -/
theorem parser_stops_branch :
    (∃ n, Finished (parserCursor n branchTokens 0)) ∧
      (¬ ∃ i d, HeadAt branchTokens i d ∧ ¬ Passable branchTokens i) ∧
      statementCursor 9 branchTokens 3 = .done 9 ∧ ¬ FallsOff branchTokens 3 := by
  have hiff := @parser_stops_iff branchTokens rfl
  have hstops : ∃ n, Finished (parserCursor n branchTokens 0) := ⟨20, .inl ⟨10, rfl⟩⟩
  have hcall : statementCursor 9 branchTokens 3 = .done 9 := rfl
  refine ⟨hstops, ?_, hcall, (hiff.2 9 3 9 hcall).mp (by decide)⟩
  rintro ⟨i, d, hhead, hnot⟩
  exact hnot (hiff.1.mp hstops i d hhead)

end Bytecode

end SystemsProjects

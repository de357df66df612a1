import SystemsProjects.Bytecode.Lexemes

/-!
# The lexer and the ends of its arrays

`tokens` has as many entries as the source has characters; `wordBuilder`, `numBuilder` and
a token's `name` have 32. Which sources keep every write of `lexer` inside is decided by
two conditions on the text:

- `Absorbs`: some character makes no token of its own, because it is white space or is
  read together with its neighbour. `TOK_EOF` needs the entry this leaves free.
- `Overlong`: there is a word or a number of 32 characters.

`lexer_inside_iff`: on every source that `lexer` returns on, all writes are inside exactly
when the text absorbs a character and has no overlong word or number. A source whose
characters are all tokens of their own, the empty one among them, makes `lexer` write
`TOK_EOF` behind the block it allocated (`lexer_outside_x`).

Both conditions are carried through the loop as equivalences: what is true of the locals
and the text before a round is true after it, and conversely.

A count does the rest: `Lexing.total`, the tokens sent plus the characters left, starts as the
number of characters and never grows. It falls exactly in the rounds that absorb a character, so
in the end there is an entry left for `TOK_EOF` exactly when one of them did.
-/

namespace SystemsProjects

namespace Bytecode

/-! ## The conditions on the text -/

/-- Two neighbours that the lexer reads into one token. -/
def joined (a b : Char) : Bool :=
  isdigit a && isdigit b || isalpha a && isalnum b || a = '=' && b = '='

/-- The text has white space, or neighbours that are read into one token. -/
def Absorbs (cs : List Char) : Prop :=
  (∃ c ∈ cs, isspace c = true) ∨ ∃ a b, [a, b] <:+: cs ∧ joined a b = true

/-- A word or a number from its first character on. -/
def IsRun (w : List Char) : Prop :=
  (∀ c ∈ w, isdigit c = true) ∨
    ∃ c v, w = c :: v ∧ isalpha c = true ∧ ∀ d ∈ v, isalnum d = true

/-- The text has 32 digits in a row, or a letter with 31 letters or digits behind it. -/
def Overlong (cs : List Char) : Prop := ∃ w, w <:+: cs ∧ w.length = 32 ∧ IsRun w

/-! ## The property -/

/-- Every write was inside its array; `size` is the number of entries of `tokens`. -/
structure LexerResult.Inside (r : LexerResult) (size : Nat) : Prop where
  tokens : ∀ i ∈ r.tokensWritten, i < size
  wordBuilder : ∀ i ∈ r.wordWritten, i < 32
  numBuilder : ∀ i ∈ r.numWritten, i < 32
  name : ∀ i ∈ r.nameWritten, i < 32

/-- The same of the scratch buffers and the names, during the loop. -/
structure Lexing.BuffersInside (s : Lexing) : Prop where
  wordBuilder : ∀ i ∈ s.wordBuilder.written, i < 32
  numBuilder : ∀ i ∈ s.numBuilder.written, i < 32
  name : ∀ i ∈ s.nameWritten, i < 32

/-! ## The conditions on a text in two parts -/

section Parts

variable {c : Char} {w rest : List Char}

/-- A text absorbs a character when one of its parts does, if nothing is joined where they
meet. -/
theorem absorbs_append (hseam : ∀ a ∈ w, ∀ b, rest.head? = some b → joined a b = false) :
    Absorbs (w ++ rest) ↔ Absorbs w ∨ Absorbs rest := by
  constructor
  · rintro (⟨c, hc, hspace⟩ | ⟨a, b, hinfix, hjoined⟩)
    · rcases List.mem_append.mp hc with hc | hc
      · exact .inl (.inl ⟨c, hc, hspace⟩)
      · exact .inr (.inl ⟨c, hc, hspace⟩)
    · rcases List.infix_append_iff_ne_nil.mp hinfix with
        h | h | ⟨l₁, l₂, hne₁, hne₂, hab, hsuffix, hprefix⟩
      · exact .inl (.inr ⟨a, b, h, hjoined⟩)
      · exact .inr (.inr ⟨a, b, h, hjoined⟩)
      · -- the pair would stand across the seam
        obtain ⟨x, xs, rfl⟩ := List.exists_cons_of_ne_nil hne₁
        obtain ⟨y, ys, rfl⟩ := List.exists_cons_of_ne_nil hne₂
        obtain ⟨rfl, htail⟩ := List.cons.inj hab
        cases xs with
        | cons z zs =>
          have hlen := congrArg List.length htail
          simp at hlen
        | nil =>
          obtain ⟨rfl, -⟩ := List.cons.inj htail
          obtain ⟨r, hr⟩ := hprefix
          have hhead : rest.head? = some b := by rw [← hr]; rfl
          rw [hseam a (hsuffix.subset (List.mem_cons_self ..)) b hhead] at hjoined
          cases hjoined
  · -- what one part absorbs, the whole does
    rintro ((⟨c, hc, hspace⟩ | ⟨a, b, hinfix, hjoined⟩) |
      (⟨c, hc, hspace⟩ | ⟨a, b, hinfix, hjoined⟩))
    · exact .inl ⟨c, List.mem_append_left _ hc, hspace⟩
    · exact .inr ⟨a, b, List.infix_append_of_infix_left hinfix, hjoined⟩
    · exact .inl ⟨c, List.mem_append_right _ hc, hspace⟩
    · exact .inr ⟨a, b, List.infix_append_of_infix_right hinfix, hjoined⟩

/-- The characters of a run are letters and digits. -/
theorem IsRun.isalnum (h : IsRun w) : ∀ c ∈ w, isalnum c = true := by
  rcases h with h | ⟨c, v, rfl, hc, hv⟩
  · exact fun c hc => isalnum_of_isdigit (h c hc)
  · intro d hd
    rcases List.mem_cons.mp hd with rfl | hd
    · exact isalnum_of_isalpha hc
    · exact hv d hd

/-- Some run begins in one part and ends in the other. -/
def Crosses (w rest : List Char) : Prop :=
  ∃ l₁ l₂, l₁ ≠ [] ∧ l₂ ≠ [] ∧ IsRun (l₁ ++ l₂) ∧ l₁ <:+ w ∧ l₂ <+: rest

/-- Where no run crosses the seam, a long run is in one of the two parts. -/
theorem overlong_append (hseam : ¬ Crosses w rest) :
    Overlong (w ++ rest) ↔ Overlong w ∨ Overlong rest := by
  constructor
  · rintro ⟨v, hinfix, hlen, hrun⟩
    rcases List.infix_append_iff_ne_nil.mp hinfix with
      h | h | ⟨l₁, l₂, hne₁, hne₂, rfl, hsuffix, hprefix⟩
    · exact .inl ⟨v, h, hlen, hrun⟩
    · exact .inr ⟨v, h, hlen, hrun⟩
    · exact absurd ⟨l₁, l₂, hne₁, hne₂, hrun, hsuffix, hprefix⟩ hseam
  · rintro (⟨v, hinfix, hlen, hrun⟩ | ⟨v, hinfix, hlen, hrun⟩)
    · exact ⟨v, List.infix_append_of_infix_left hinfix, hlen, hrun⟩
    · exact ⟨v, List.infix_append_of_infix_right hinfix, hlen, hrun⟩

/-- The first characters of two parts that a run goes through. -/
theorem Crosses.ends (h : Crosses w rest) :
    ∃ a b, a ∈ w ∧ rest.head? = some b ∧ isalnum a = true ∧ isalnum b = true ∧
      ((isdigit a = true ∧ isdigit b = true) ∨ isalpha a = true) := by
  obtain ⟨l₁, l₂, hne₁, hne₂, hrun, hsuffix, hprefix⟩ := h
  obtain ⟨a, xs, rfl⟩ := List.exists_cons_of_ne_nil hne₁
  obtain ⟨b, ys, rfl⟩ := List.exists_cons_of_ne_nil hne₂
  obtain ⟨r, rfl⟩ := hprefix
  have ha : a ∈ a :: xs ++ b :: ys := List.mem_append_left _ (List.mem_cons_self ..)
  have hb : b ∈ a :: xs ++ b :: ys := List.mem_append_right _ (List.mem_cons_self ..)
  refine ⟨a, b, hsuffix.subset (List.mem_cons_self ..), rfl, hrun.isalnum a ha,
    hrun.isalnum b hb, ?_⟩
  rcases hrun with hdigits | ⟨c, v, heq, hc, -⟩
  · exact .inl ⟨hdigits a ha, hdigits b hb⟩
  · obtain ⟨rfl, -⟩ := List.cons.inj heq
    exact .inr hc

/-! ### The pieces a round takes -/

/-- A run is overlong by its length alone. -/
theorem IsRun.overlong_iff (h : IsRun w) : Overlong w ↔ 32 ≤ w.length := by
  constructor
  · rintro ⟨v, hinfix, hlen, -⟩
    have := hinfix.length_le
    omega
  · intro hlen
    refine ⟨w.take 32, (List.take_prefix 32 w).isInfix, List.length_take_of_le hlen, ?_⟩
    rcases h with h | ⟨c, v, rfl, hc, hv⟩
    · exact .inl fun c hc => h c (List.mem_of_mem_take hc)
    · exact .inr ⟨c, v.take 31, rfl, hc, fun d hd => hv d (List.mem_of_mem_take hd)⟩

/-- A run absorbs a character as soon as it has two. -/
theorem IsRun.absorbs_iff (h : IsRun w) (hne : w ≠ []) : Absorbs w ↔ 2 ≤ w.length := by
  constructor
  · rintro (⟨c, hc, hspace⟩ | ⟨a, b, hinfix, -⟩)
    · have halnum := isalnum_of_isspace hspace
      rw [h.isalnum c hc] at halnum
      cases halnum
    · have hle := hinfix.length_le
      exact hle
  · intro hlen
    obtain ⟨c, v, rfl⟩ := List.exists_cons_of_ne_nil hne
    cases v with
    | nil => exact absurd hlen (by simp)
    | cons d v =>
      refine .inr ⟨c, d, (List.prefix_append [c, d] v).isInfix, ?_⟩
      rcases h with hdigits | ⟨c', v', heq, hc, hv⟩
      · simp [joined, hdigits]
      · obtain ⟨rfl, rfl⟩ := List.cons.inj heq
        simp [joined, hc, hv]

/-- Behind a whole word or number nothing is joined to it, and no run crosses over. -/
structure Whole (w rest : List Char) : Prop where
  run : IsRun w
  ne_nil : w ≠ []
  seam : ∀ a ∈ w, ∀ b, rest.head? = some b → joined a b = false
  separate : ¬ Crosses w rest

/-- A whole run in front is too long itself, or there is a long run in what follows. -/
theorem Whole.overlong_iff (h : Whole w rest) :
    Overlong (w ++ rest) ↔ 32 ≤ w.length ∨ Overlong rest := by
  rw [overlong_append h.separate, h.run.overlong_iff]

/-- A whole run of two characters or more is joined; else it is for what follows to have white space
or joined neighbours. -/
theorem Whole.absorbs_iff (h : Whole w rest) :
    Absorbs (w ++ rest) ↔ 2 ≤ w.length ∨ Absorbs rest := by
  rw [absorbs_append h.seam, h.run.absorbs_iff h.ne_nil]

/-- `=` is neither a letter nor a digit. -/
theorem ne_equals_of_isalnum (h : isalnum c = true) : c ≠ '=' := by
  rintro rfl
  revert h
  decide

/-- The word that the lexer takes is a whole run. -/
theorem whole_word (hc : isalpha c = true) :
    Whole (c :: rest.takeWhile isalnum) (rest.dropWhile isalnum) := by
  have hword : ∀ d ∈ c :: rest.takeWhile isalnum, isalnum d = true := isalnum_of_mem_word hc
  refine ⟨.inr ⟨c, _, rfl, hc, fun d hd => hword d (List.mem_cons_of_mem c hd)⟩,
    List.cons_ne_nil _ _, fun a ha b hb => ?_, fun hcross => ?_⟩
  · have hb := head?_dropWhile_stop hb
    have hdigit := (Bool.or_eq_false_iff.mp hb).2
    simp [joined, hb, hdigit, ne_equals_of_isalnum (hword a ha)]
  · obtain ⟨a, b, -, hb, -, halnum, -⟩ := hcross.ends
    rw [head?_dropWhile_stop hb] at halnum
    cases halnum

theorem whole_number (hc : isdigit c = true) :
    Whole ((c :: rest).takeWhile isdigit) ((c :: rest).dropWhile isdigit) := by
  have hdigits : ∀ d ∈ (c :: rest).takeWhile isdigit, isdigit d = true :=
    fun d hd => List.mem_takeWhile_imp hd
  have hne : (c :: rest).takeWhile isdigit ≠ [] := by
    rw [List.takeWhile_cons, if_pos hc]
    exact List.cons_ne_nil _ _
  refine ⟨.inl hdigits, hne, fun a ha b hb => ?_, fun hcross => ?_⟩
  · have hb := head?_dropWhile_stop hb
    have ha := hdigits a ha
    simp [joined, hb, isalpha_of_isdigit ha, ne_equals_of_isalnum (isalnum_of_isdigit ha)]
  · obtain ⟨a, b, ha, hb, -, -, hdigit | halpha⟩ := hcross.ends
    · rw [head?_dropWhile_stop hb] at hdigit
      cases hdigit.2
    · rw [isalpha_of_isdigit (hdigits a ha)] at halpha
      cases halpha

theorem not_overlong_of_lt (h : w.length < 32) : ¬ Overlong w := by
  rintro ⟨v, hinfix, hlen, -⟩
  have := hinfix.length_le
  omega

/-- A character that is neither letter nor digit lengthens no run. -/
theorem overlong_cons (hc : isalnum c = false) : Overlong (c :: rest) ↔ Overlong rest := by
  have hcross : ¬ Crosses [c] rest := by
    intro hcross
    obtain ⟨a, b, ha, -, halnum, -, -⟩ := hcross.ends
    obtain rfl := List.mem_singleton.mp ha
    rw [hc] at halnum
    cases halnum
  have hone : ¬ Overlong [c] := not_overlong_of_lt (by simp)
  have happend := overlong_append hcross
  rw [List.singleton_append] at happend
  rw [happend]
  exact ⟨fun h => h.resolve_left hone, .inr⟩

/-- A character that is a token of its own absorbs nothing. -/
theorem absorbs_cons (hc : isalnum c = false) (hspace : isspace c = false)
    (hrest : c = '=' → rest.head? ≠ some '=') : Absorbs (c :: rest) ↔ Absorbs rest := by
  obtain ⟨halpha, hdigit⟩ := Bool.or_eq_false_iff.mp hc
  have hseam : ∀ a ∈ [c], ∀ b, rest.head? = some b → joined a b = false := by
    intro a ha b hb
    obtain rfl := List.mem_singleton.mp ha
    rw [joined, halpha, hdigit, Bool.false_and, Bool.false_and, Bool.false_or, Bool.false_or,
      Bool.and_eq_false_iff, decide_eq_false_iff_not, decide_eq_false_iff_not]
    by_contra hboth
    rw [not_or, not_not, not_not] at hboth
    obtain ⟨heq, rfl⟩ := hboth
    exact hrest heq hb
  have hone : ¬ Absorbs [c] := by
    rintro (⟨d, hd, hd'⟩ | ⟨a, b, hinfix, -⟩)
    · rw [List.mem_singleton.mp hd, hspace] at hd'
      cases hd'
    · exact absurd hinfix.length_le (by simp)
  have happend := absorbs_append hseam
  rw [List.singleton_append] at happend
  rw [happend]
  exact ⟨fun h => h.resolve_left hone, .inr⟩

end Parts

/-! ## One round -/

section Rounds

variable {s s' : Lexing} {c : Char} {rest w : List Char}

/-- Both scratch buffers are rewound. -/
structure Lexing.Rewound (s : Lexing) : Prop where
  wordBuilder : s.wordBuilder.pointer = 0
  numBuilder : s.numBuilder.pointer = 0

/-- The tokens sent and the characters left. A round that takes one character for one
token keeps the sum, any other round lowers it. -/
def Lexing.total (s : Lexing) : Nat := s.tokens.pointer + s.current.length

/-- What a round keeps. -/
structure Keeps (s s' : Lexing) : Prop where
  rewound : s'.Rewound
  written : (∀ i ∈ s.tokens.written, i < s.tokens.pointer) →
    ∀ i ∈ s'.tokens.written, i < s'.tokens.pointer
  total_le : s'.total ≤ s.total
  absorbs : Absorbs s.current ↔ s'.total < s.total ∨ Absorbs s'.current
  buffers : s'.BuffersInside ∧ ¬ Overlong s'.current ↔ s.BuffersInside ∧ ¬ Overlong s.current

theorem range'_lt_iff (n : Nat) : (∀ i ∈ List.range' 0 (n + 1), i < 32) ↔ ¬ 32 ≤ n := by
  simp only [List.mem_range'_1]
  constructor
  · intro h hn
    exact absurd (h n (by omega)) (by omega)
  · intro hn i hi
    omega

theorem forall_mem_append_lt {is js : List Nat} :
    (∀ i ∈ is ++ js, i < 32) ↔ (∀ i ∈ is, i < 32) ∧ ∀ i ∈ js, i < 32 := by
  simp only [List.mem_append, or_imp, forall_and]

/-- A word stays inside its buffers exactly when it has fewer than 32 characters. -/
theorem WordRound.buffers (h : WordRound s w s') :
    s'.BuffersInside ↔ s.BuffersInside ∧ ¬ 32 ≤ w.length := by
  constructor
  · rintro ⟨hword, hnum, hname⟩
    rw [h.wordWritten, forall_mem_append_lt, range'_lt_iff] at hword
    rw [h.numBuilder] at hnum
    refine ⟨⟨hword.1, hnum, ?_⟩, hword.2⟩
    rcases h.nameWritten with heq | heq
    · rwa [heq] at hname
    · rw [heq, forall_mem_append_lt] at hname
      exact hname.1
  · rintro ⟨⟨hword, hnum, hname⟩, hlen⟩
    refine ⟨?_, ?_, ?_⟩
    · rw [h.wordWritten, forall_mem_append_lt, range'_lt_iff]
      exact ⟨hword, hlen⟩
    · rwa [h.numBuilder]
    · rcases h.nameWritten with heq | heq
      · rwa [heq]
      · rw [heq, forall_mem_append_lt, range'_lt_iff]
        exact ⟨hname, hlen⟩

theorem NumberRound.buffers (h : NumberRound s w s') :
    s'.BuffersInside ↔ s.BuffersInside ∧ ¬ 32 ≤ w.length := by
  constructor
  · rintro ⟨hword, hnum, hname⟩
    rw [h.numWritten, forall_mem_append_lt, range'_lt_iff] at hnum
    rw [h.wordBuilder] at hword
    rw [h.nameWritten] at hname
    exact ⟨⟨hword, hnum.1, hname⟩, hnum.2⟩
  · rintro ⟨⟨hword, hnum, hname⟩, hlen⟩
    refine ⟨?_, ?_, ?_⟩
    · rwa [h.wordBuilder]
    · rw [h.numWritten, forall_mem_append_lt, range'_lt_iff]
      exact ⟨hnum, hlen⟩
    · rwa [h.nameWritten]

/-- One more token is written at the index that was free. -/
theorem written_push {t : RawToken} (htokens : s'.tokens = s.tokens.push t)
    (h : ∀ i ∈ s.tokens.written, i < s.tokens.pointer) :
    ∀ i ∈ s'.tokens.written, i < s'.tokens.pointer := by
  rw [htokens, Scratch.push_written, Scratch.push_pointer]
  intro i hi
  rcases List.mem_append.mp hi with hi | hi
  · have := h i hi
    omega
  · rw [List.mem_singleton.mp hi]
    exact Nat.lt_succ_self _

/-- A round that takes a whole word or number for one token. -/
theorem Whole.keeps (h : Whole w s'.current) (hcurrent : s.current = w ++ s'.current)
    {t : RawToken} (htokens : s'.tokens = s.tokens.push t) (hrewound : s'.Rewound)
    (hbuffers : s'.BuffersInside ↔ s.BuffersInside ∧ ¬ 32 ≤ w.length) : Keeps s s' := by
  have hpos : 0 < w.length := List.length_pos_iff.mpr h.ne_nil
  have hpointer : s'.tokens.pointer = s.tokens.pointer + 1 := by
    rw [htokens, Scratch.push_pointer]
  have htotal : s.total = s.tokens.pointer + (w.length + s'.current.length) := by
    rw [Lexing.total, hcurrent, List.length_append]
  have htotal' : s'.total = s.tokens.pointer + 1 + s'.current.length := by
    rw [Lexing.total, hpointer]
  refine ⟨hrewound, written_push htokens, by omega, ?_, ?_⟩
  · have hlt : s'.total < s.total ↔ 2 ≤ w.length := by omega
    rw [hcurrent, h.absorbs_iff, hlt]
  · rw [hcurrent, h.overlong_iff, hbuffers, not_or, and_assoc]

/-- A round that sends a token for a sign and touches no scratch buffer. -/
theorem SignRound.keeps {type : TokenType} (h : SignRound s s' type) (hrewound : s.Rewound)
    (hoverlong : Overlong s.current ↔ Overlong s'.current)
    (htotal : s'.current.length + 1 ≤ s.current.length)
    (habsorbs : Absorbs s.current ↔
      s'.current.length + 1 < s.current.length ∨ Absorbs s'.current) : Keeps s s' := by
  have hpointer : s'.tokens.pointer = s.tokens.pointer + 1 := by
    rw [h.tokens, Scratch.push_pointer]
  have hlt : s'.total < s.total ↔ s'.current.length + 1 < s.current.length := by
    rw [Lexing.total, Lexing.total, hpointer]
    omega
  refine ⟨⟨?_, ?_⟩, written_push h.tokens, ?_, ?_, ?_⟩
  · rw [h.wordBuilder]
    exact hrewound.wordBuilder
  · rw [h.numBuilder]
    exact hrewound.numBuilder
  · rw [Lexing.total, Lexing.total, hpointer]
    omega
  · rw [hlt, habsorbs]
  · -- the scratch buffers and the record of names are those of before
    have hbuffers : s'.BuffersInside ↔ s.BuffersInside := by
      constructor
      · rintro ⟨hword, hnum, hname⟩
        rw [h.wordBuilder] at hword
        rw [h.numBuilder] at hnum
        rw [h.nameWritten] at hname
        exact ⟨hword, hnum, hname⟩
      · rintro ⟨hword, hnum, hname⟩
        rw [← h.wordBuilder] at hword
        rw [← h.numBuilder] at hnum
        rw [← h.nameWritten] at hname
        exact ⟨hword, hnum, hname⟩
    rw [hbuffers, hoverlong]

/-- What a round takes off the text accounts for the tokens it writes and for the long runs. -/
theorem RoundAt.keeps (h : RoundAt s c rest s') (hcurrent : s.current = c :: rest)
    (hrewound : s.Rewound) : Keeps s s' := by
  cases h with
  | word hc =>
    -- a word or number: a whole run for one token
    have hround : WordRound s (c :: rest.takeWhile isalnum) (s.word c rest) :=
      wordRound hrewound.wordBuilder hc
    have hcurrent' := word_current s c rest
    refine Whole.keeps (w := c :: rest.takeWhile isalnum) ?_ ?_ hround.tokens
      ⟨hround.wordPointer, ?_⟩ hround.buffers
    · rw [hcurrent']
      exact whole_word hc
    · rw [hcurrent, hcurrent', List.cons_append, List.takeWhile_append_dropWhile]
    · rw [hround.numBuilder]
      exact hrewound.numBuilder
  | number hc =>
    have hround := numberRound hrewound.numBuilder
    have hcurrent' := number_current s
    rw [hcurrent] at hround hcurrent'
    refine Whole.keeps (w := (c :: rest).takeWhile isdigit) ?_ ?_ hround.tokens
      ⟨?_, hround.numPointer⟩ hround.buffers
    · rw [hcurrent']
      exact whole_number hc
    · rw [hcurrent, hcurrent', List.takeWhile_append_dropWhile]
    · rw [hround.wordBuilder]
      exact hrewound.wordBuilder
  | space hc =>
    -- white space is absorbed, and no token is sent
    have htotal : s.total = s.tokens.pointer + (rest.length + 1) := by
      rw [Lexing.total, hcurrent, List.length_cons]
    refine ⟨⟨hrewound.wordBuilder, hrewound.numBuilder⟩, fun hwritten => hwritten, ?_, ?_, ?_⟩
    · rw [htotal]
      exact Nat.add_le_add_left (Nat.le_succ _) _
    · have habsorbs : Absorbs s.current := .inl ⟨c, by rw [hcurrent]; simp, hc⟩
      refine ⟨fun _ => .inl ?_, fun _ => habsorbs⟩
      rw [htotal]
      exact Nat.add_lt_add_left (Nat.lt_succ_self _) _
    · rw [hcurrent, overlong_cons (isalnum_of_isspace hc)]
      exact ⟨fun ⟨⟨hw, hn, hm⟩, ho⟩ => ⟨⟨hw, hn, hm⟩, ho⟩,
        fun ⟨⟨hw, hn, hm⟩, ho⟩ => ⟨⟨hw, hn, hm⟩, ho⟩⟩
  | equals hc hrest =>
    subst hc
    -- `=` alone takes one character for one token
    refine (signRound s .tokEq rest).keeps hrewound ?_ ?_ ?_
    · rw [hcurrent]
      exact overlong_cons (by decide)
    · rw [hcurrent]
      exact Nat.le_refl _
    · rw [hcurrent, absorbs_cons (by decide) (by decide) fun _ => hrest]
      simp
  | double hc hrest =>
    subst hc
    obtain ⟨r, rfl⟩ : ∃ r, rest = '=' :: r := by
      cases rest with
      | nil => cases hrest
      | cons d r =>
        obtain rfl := Option.some.inj hrest
        exact ⟨r, rfl⟩
    refine (signRound s .tokEqeq r).keeps hrewound ?_ ?_ ?_
    · rw [hcurrent, overlong_cons (by decide)]
      exact overlong_cons (by decide)
    · rw [hcurrent]
      exact Nat.le_succ _
    · -- two characters for one token
      rw [hcurrent]
      have hpair : Absorbs ('=' :: '=' :: r) :=
        .inr ⟨'=', '=', (List.prefix_append ['=', '='] r).isInfix, by decide⟩
      exact ⟨fun _ => .inl (Nat.lt_succ_self _), fun _ => hpair⟩
  | @single type hc =>
    -- every other sign does, too
    obtain ⟨halpha, hdigit, hspace, hne⟩ := singleType_class hc
    have halnum : isalnum c = false := by rw [isalnum, halpha, hdigit, Bool.false_or]
    refine (signRound s type rest).keeps hrewound ?_ ?_ ?_
    · rw [hcurrent]
      exact overlong_cons halnum
    · rw [hcurrent]
      exact Nat.le_refl _
    · rw [hcurrent, absorbs_cons halnum hspace fun h => absurd h hne]
      simp

end Rounds

/-! ## Runs -/

theorem Keeps.refl {s : Lexing} (h : s.Rewound) : Keeps s s :=
  ⟨h, fun hwritten => hwritten, Nat.le_refl _, by simp, Iff.rfl⟩

theorem Keeps.trans {s s' s'' : Lexing} (h : Keeps s s') (h' : Keeps s' s'') : Keeps s s'' := by
  have hle := h.total_le
  have hle' := h'.total_le
  refine ⟨h'.rewound, fun hwritten => h'.written (h.written hwritten), by omega, ?_,
    h'.buffers.trans h.buffers⟩
  rw [h.absorbs, h'.absorbs, ← or_assoc]
  have hlt : s'.total < s.total ∨ s''.total < s'.total ↔ s''.total < s.total := by omega
  rw [hlt]

/-- The loop keeps what its rounds keep, and ends at the end of the text. -/
theorem lexLoop_keeps {n : Nat} {s f : Lexing} (h : lexLoop n s = .done f)
    (hrewound : s.Rewound) : Keeps s f ∧ f.current = [] := by
  induction n generalizing s with
  | zero => cases h
  | succ n ih =>
    cases hcurrent : s.current with
    | nil =>
      rw [lexLoop_nil hcurrent] at h
      obtain rfl := Fueled.done.inj h
      exact ⟨.refl hrewound, hcurrent⟩
    | cons c rest =>
      rw [lexLoop_cons hcurrent, Fueled.bind_eq_done] at h
      obtain ⟨s', hround, hloop⟩ := h
      have hkeeps := (lexRound_eq_done hround).keeps hcurrent hrewound
      obtain ⟨hrest, hend⟩ := ih hloop hkeeps.rewound
      exact ⟨hkeeps.trans hrest, hend⟩

theorem not_absorbs_nil : ¬ Absorbs [] := by
  rintro (⟨c, hc, -⟩ | ⟨a, b, hinfix, -⟩)
  · cases hc
  · exact absurd hinfix.length_le (by simp)

/-- **When the lexer stays inside its buffers.** On a source that `lexer` returns on, every
write is inside its array exactly when the text has white space or neighbours that are read
into one token, and no word or number of more than 31 characters. -/
theorem lexer_inside_iff {junk : Junk} {source : CString} {r : LexerResult}
    (h : Yields (fun n => lexer n junk source) r) :
    r.Inside source.strlen ↔ Absorbs source.chars ∧ ¬ Overlong source.chars := by
  obtain ⟨n, hn⟩ := h
  obtain ⟨f, hloop, rfl⟩ := lexer_eq_done hn
  obtain ⟨hkeeps, hend⟩ := lexLoop_keeps hloop ⟨rfl, rfl⟩
  -- the writes to `tokens`: the last one, of the end of the file, is the farthest
  have htotal : f.total = f.tokens.pointer := by
    rw [Lexing.total, hend]
    rfl
  have hroom : Absorbs source.chars ↔ f.tokens.pointer < source.strlen := by
    have habsorbs := hkeeps.absorbs
    rw [hend, htotal] at habsorbs
    have hstart : (junk.start source).total = source.strlen := Nat.zero_add _
    rw [hstart] at habsorbs
    exact habsorbs.trans ⟨fun h => h.resolve_right not_absorbs_nil, .inl⟩
  have htokens : (∀ i ∈ f.finish.tokensWritten, i < source.strlen) ↔
      f.tokens.pointer < source.strlen := by
    have hwritten := hkeeps.written (List.forall_mem_nil _)
    constructor
    · intro hall
      exact hall _ (List.mem_append_right _ (List.mem_singleton.mpr rfl))
    · intro hlt i hi
      rcases List.mem_append.mp hi with hi | hi
      · exact Nat.lt_trans (hwritten i hi) hlt
      · rwa [List.mem_singleton.mp hi]
  -- the writes to the scratch buffers and the names
  have hbuffers : f.BuffersInside ↔ ¬ Overlong source.chars := by
    have hstart : (junk.start source).BuffersInside :=
      ⟨List.forall_mem_nil _, List.forall_mem_nil _, List.forall_mem_nil _⟩
    have hnil : ¬ Overlong [] := not_overlong_of_lt (by decide)
    have hiff := hkeeps.buffers
    rw [hend] at hiff
    exact ⟨fun hf => (hiff.mp ⟨hf, hnil⟩).2, fun ho => (hiff.mpr ⟨hstart, ho⟩).1⟩
  rw [hroom, ← hbuffers, ← htokens]
  constructor
  · rintro ⟨ht, hword, hnum, hname⟩
    exact ⟨ht, hword, hnum, hname⟩
  · rintro ⟨ht, hword, hnum, hname⟩
    exact ⟨ht, hword, hnum, hname⟩

/-- Locals that hold zeroes. -/
def zeroJunk : Junk := ⟨List.replicate 32 nul, List.replicate 32 nul, [], ⟨.tokNum, 0, []⟩⟩

/-- The source `x`: one character, one token. -/
def sourceX : CString := ⟨['x'], by decide⟩

/-- On `x`, `TOK_EOF` goes to `tokens[1]`, behind the one entry that was allocated. -/
theorem lexer_outside_x : ¬ ∀ junk source r, Yields (fun n => lexer n junk source) r →
    r.Inside source.strlen := by
  intro hinside
  have hrun : ∃ r, lexer 2 zeroJunk sourceX = .done r ∧ r.tokensWritten = [0, 1] :=
    ⟨_, rfl, rfl⟩
  obtain ⟨r, hr, hwritten⟩ := hrun
  have hlt := (hinside zeroJunk sourceX r ⟨2, hr⟩).tokens 1 (by rw [hwritten]; decide)
  exact absurd hlt (by decide)

/-- A blank behind it makes room. -/
theorem lexer_inside_x_blank : ∃ r, Yields (fun n => lexer n zeroJunk ⟨['x', ' '], by decide⟩) r ∧
    r.Inside 2 := by
  have hrun : ∃ r, Yields (fun n => lexer n zeroJunk ⟨['x', ' '], by decide⟩) r :=
    ⟨_, 3, rfl⟩
  obtain ⟨r, hr⟩ := hrun
  refine ⟨r, hr, (lexer_inside_iff hr).mpr ⟨?_, ?_⟩⟩
  · exact .inl ⟨' ', by decide, by decide⟩
  · exact not_overlong_of_lt (by decide)

end Bytecode

end SystemsProjects

import Mathlib.Logic.Function.Basic
import SystemsProjects.Bytecode.LexerBuffers

/-!
# The texts that are written lists of tokens

`Lexemes` goes from a list of tokens to its texts. This module goes back: which texts are
written lists, and what `lexer` makes of them.

- `NumeralsFit`: no number in the text is larger than `INT_MAX`. A number begins at the start
  of the text or behind a character that is neither letter nor digit.
- `Token.needsGap_of_continues`: where the next character does not continue a token, the two
  neighbours need no white space between them.
- `exists_printing_iff`: the written lists are the texts of expected characters whose words
  and numbers have at most 31 characters and whose numbers fit into an `int`.
- `lexer_exact`: on these texts, and only there, `lexer` inverts writing.

One direction is `lexer_printing` of `Lexemes`. For the other a text is taken apart from the
front, by the same tests as `lexRound` makes: each piece is a blank or the spelling of a token
(`Lexical.peels`), and what is left satisfies the conditions again, so that the induction is on
the length of the text. A piece that can be taken off can also be put back, which is why the
conditions come out as an equivalence.
-/

namespace SystemsProjects

namespace Bytecode

/-! ## Numbers that fit -/

/-- Every number of the text has a value that an `int` can hold. -/
def NumeralsFit (cs : List Char) : Prop :=
  ∀ ds : List Char, (∀ d ∈ ds, isdigit d = true) →
    (ds <+: cs ∨ ∃ c, isalnum c = false ∧ (c :: ds) <:+: cs) → decimal ds ≤ 2147483647

theorem numeralsFit_nil : NumeralsFit [] := by
  rintro ds - (hpre | ⟨c, -, hinfix⟩)
  · rw [List.prefix_nil.mp hpre]
    decide
  · exact absurd hinfix.length_le (by simp)

/-- Digits behind a number do not make it smaller. -/
theorem le_ofDigitChars (ds : List Char) (n : Nat) : n ≤ Nat.ofDigitChars 10 ds n := by
  induction ds generalizing n with
  | nil => exact Nat.le_refl n
  | cons d ds ih =>
    have hstep : n ≤ 10 * n + (d.toNat - '0'.toNat) := by omega
    exact Nat.le_trans hstep (ih _)

/-- A number is at least as large as what its first digits stand for. -/
theorem decimal_le_decimal {ds es : List Char} (h : ds <+: es) : decimal ds ≤ decimal es := by
  obtain ⟨fs, rfl⟩ := h
  rw [decimal, decimal, Nat.ofDigitChars_append]
  exact le_ofDigitChars fs _

section Parts

variable {c : Char} {w rest : List Char}

/-- A character that is neither letter nor digit belongs to no number. -/
theorem numeralsFit_cons (hc : isalnum c = false) :
    NumeralsFit (c :: rest) ↔ NumeralsFit rest := by
  constructor
  · rintro h ds hds (hpre | ⟨d, hd, hinfix⟩)
    · exact h ds hds (.inr ⟨c, hc, (List.cons_prefix_cons.mpr ⟨rfl, hpre⟩).isInfix⟩)
    · exact h ds hds (.inr ⟨d, hd, List.infix_cons hinfix⟩)
  · rintro h ds hds (hpre | ⟨d, hd, hinfix⟩)
    · -- a number does not begin with `c`
      cases ds with
      | nil => decide
      | cons d ds =>
        obtain ⟨rfl, -⟩ := List.cons_prefix_cons.mp hpre
        rw [isalnum_of_isdigit (hds d (List.mem_cons_self ..))] at hc
        cases hc
    · rcases List.infix_cons_iff.mp hinfix with hpre | hinfix
      · exact h ds hds (.inl (List.cons_prefix_cons.mp hpre).2)
      · exact h ds hds (.inr ⟨d, hd, hinfix⟩)

/-- The numbers of a text that begins with a whole word or number. -/
theorem numeralsFit_append (hw : ∀ d ∈ w, isalnum d = true)
    (hrest : ∀ d, rest.head? = some d → isdigit d = false) :
    NumeralsFit (w ++ rest) ↔
      (∀ ds, (∀ d ∈ ds, isdigit d = true) → ds <+: w → decimal ds ≤ 2147483647) ∧
        NumeralsFit rest := by
  constructor
  · -- a number is at the start of `w`, or behind it
    intro h
    refine ⟨fun ds hds hpre => h ds hds (.inl (hpre.trans (List.prefix_append w rest))), ?_⟩
    rintro ds hds (hpre | ⟨d, hd, hinfix⟩)
    · cases ds with
      | nil => decide
      | cons d ds =>
        obtain ⟨r, rfl⟩ := hpre
        have hd := hrest d rfl
        rw [hds d (List.mem_cons_self ..)] at hd
        cases hd
    · exact h ds hds (.inr ⟨d, hd, List.infix_append_of_infix_right hinfix⟩)
  · rintro ⟨hfirst, h⟩ ds hds (hpre | ⟨d, hd, hinfix⟩)
    · rcases List.prefix_or_prefix_of_prefix hpre (List.prefix_append w rest) with
        hpre | ⟨es, rfl⟩
      · exact hfirst ds hds hpre
      · -- behind `w` the number would go on
        have hes := (List.prefix_append_right_inj w).mp hpre
        cases es with
        | nil =>
          rw [List.append_nil] at hds ⊢
          exact hfirst w hds (List.prefix_refl w)
        | cons e es =>
          obtain ⟨r, rfl⟩ := hes
          have he := hrest e rfl
          rw [hds e (List.mem_append_right w (List.mem_cons_self ..))] at he
          cases he
    · -- a number that begins behind a separator: `w` has none
      rcases List.infix_append_iff_ne_nil.mp hinfix with
        hin | hin | ⟨l₁, l₂, hne₁, -, heq, hsuffix, -⟩
      · have hmem := hw d (hin.subset (List.mem_cons_self ..))
        rw [hd] at hmem
        cases hmem
      · exact h ds hds (.inr ⟨d, hd, hin⟩)
      · obtain ⟨e, es, rfl⟩ := List.exists_cons_of_ne_nil hne₁
        obtain ⟨rfl, -⟩ := List.cons.inj heq
        have hmem := hw d (hsuffix.subset (List.mem_cons_self ..))
        rw [hd] at hmem
        cases hmem

end Parts

/-! ## Reading lexemes off a text -/

/-- Where the next character does not continue the token, no white space is needed. -/
theorem Spells.needsGap_of_continues {t u : Token} {c : Char} {v : List Char}
    (h : Spells u (c :: v)) (hstop : continues t c = false) : needsGap t u = false := by
  rw [continues, Bool.or_eq_false_iff, Bool.or_eq_false_iff] at hstop
  obtain ⟨⟨hword, hnumber⟩, hequals⟩ := hstop
  rw [needsGap, Bool.or_eq_false_iff, Bool.or_eq_false_iff]
  by_cases hu : u.isWord = true
  · -- a word begins with a letter
    obtain ⟨d, w, heq, hd, -⟩ := h.word hu
    obtain ⟨rfl, -⟩ := List.cons.inj heq
    have ht : t.isWord = false := by simpa [isalnum_of_isalpha hd] using hword
    have hnum : u.isNumber = false := by
      cases u <;> first | rfl | cases hu
    have hne : u ≠ .tokEq ∧ u ≠ .tokEqeq := by
      constructor
      · rintro rfl
        cases hu
      · rintro rfl
        cases hu
    simp [ht, hnum, hne]
  · generalize hw : c :: v = w at h
    cases h with
    | ident _ => exact absurd rfl hu
    | num hne hdigits _ _ =>
      -- a number begins with a digit
      have hd := hdigits c (by rw [← hw]; exact List.mem_cons_self ..)
      have ht : t.isWord = false := by simpa [isalnum_of_isdigit hd] using hword
      have ht' : t.isNumber = false := by simpa [hd] using hnumber
      simp [ht, ht']
    | sign hsign =>
      cases u with
      | tokPrint | tokWhile | tokIf => exact absurd rfl hu
      | tokNum v => cases hsign
      | tokIdent x => cases hsign
      | tokEof => cases hsign
      | tokEq | tokEqeq =>
        -- only `=` and `==` begin with a sign that goes on
        obtain ⟨rfl, -⟩ := List.cons.inj (hw.trans (Option.some.inj hsign).symm)
        have ht : t ≠ .tokEq := by simpa using hequals
        simp [Token.isWord, Token.isNumber, ht]
      | _ => simp [Token.isWord, Token.isNumber]

/-- The text is white space and then lexemes; the first of them follows the token `t`. -/
structure Written (cs lead : List Char) (ls : List Lexeme) : Prop where
  eq : cs = lead ++ written ls
  blank : ∀ c ∈ lead, isspace c = true
  apart : ls.IsChain Lexeme.Apart

/-- White space in front of a written text. -/
theorem Written.space {cs lead : List Char} {ls : List Lexeme} (h : Written cs lead ls) {c : Char}
    (hc : isspace c = true) : Written (c :: cs) (c :: lead) ls :=
  ⟨by rw [h.eq]; rfl, List.forall_mem_cons.mpr ⟨hc, h.blank⟩, h.apart⟩

/-- A spelling in front of a written text that does not continue it. -/
theorem Written.lexeme {cs lead w : List Char} {ls : List Lexeme} (h : Written cs lead ls)
    {t : Token} (ht : Spells t w) (hstop : ∀ c, cs.head? = some c → continues t c = false) :
    Written (w ++ cs) [] (⟨t, w, lead, ht, h.blank⟩ :: ls) := by
  refine ⟨?_, List.forall_mem_nil _, List.isChain_cons.mpr ⟨?_, h.apart⟩⟩
  · have heq : w ++ cs = w ++ (lead ++ written ls) := congrArg (w ++ ·) h.eq
    rw [heq, ← List.append_assoc]
    rfl
  · intro m hm hneeds hlead
    obtain ⟨c, v, htext, -⟩ := m.spells.head
    obtain rfl : lead = [] := hlead
    have hspells := m.spells
    rw [htext] at hspells
    have hhead : cs.head? = some c := by
      cases ls with
      | nil => cases hm
      | cons l ls =>
        obtain rfl := Option.some.inj hm
        rw [h.eq, List.nil_append, written, List.flatMap_cons, htext]
        rfl
    rw [hspells.needsGap_of_continues (hstop c hhead)] at hneeds
    cases hneeds

/-- A letter with letters and digits behind it spells a keyword or an identifier. -/
theorem exists_spells_word {c : Char} {v : List Char} (hc : isalpha c = true)
    (hv : ∀ d ∈ v, isalnum d = true) (hlen : (c :: v).length < 32) :
    ∃ t, Spells t (c :: v) ∧ t.isWord = true := by
  by_cases hkey : c :: v ∈ keywords
  · have hcases : c :: v = ['p', 'r', 'i', 'n', 't'] ∨ c :: v = ['w', 'h', 'i', 'l', 'e'] ∨
        c :: v = ['i', 'f'] := by simpa [keywords] using hkey
    rcases hcases with h | h | h
    · exact ⟨.tokPrint, .sign (by rw [h]; rfl), rfl⟩
    · exact ⟨.tokWhile, .sign (by rw [h]; rfl), rfl⟩
    · exact ⟨.tokIf, .sign (by rw [h]; rfl), rfl⟩
  · have hnul : nul ∉ c :: v := by
      intro hmem
      rcases List.mem_cons.mp hmem with heq | hmem
      · exact ne_nul_of_isalnum (isalnum_of_isalpha hc) heq.symm
      · exact ne_nul_of_isalnum (hv _ hmem) rfl
    exact ⟨.tokIdent ⟨c :: v, hlen, hnul⟩, .ident ⟨⟨c, v, rfl, hc, hv⟩, hkey⟩, rfl⟩

/-- A sign of one character is spelt by it, whatever follows. -/
theorem Token.spells_alone {t : Token} {c : Char} (hsign : t.sign? = some [c])
    (hword : t.isWord = false) (hequals : t ≠ .tokEq) :
    Spells t [c] ∧ ∀ d, continues t d = false := by
  refine ⟨.sign hsign, fun d => ?_⟩
  have hnumber : t.isNumber = false := by
    cases t with
    | tokNum v => cases hsign
    | _ => rfl
  simp [continues, hword, hnumber, hequals]

/-- The other tokens of one character. -/
theorem exists_spells_single {c : Char} {type : TokenType} (hc : singleType c = some type) :
    ∃ t, Spells t [c] ∧ ∀ d, continues t d = false := by
  unfold singleType at hc
  split at hc
  case h_1 => exact ⟨.tokPlus, Token.spells_alone rfl rfl (by decide)⟩
  case h_2 => exact ⟨.tokMinus, Token.spells_alone rfl rfl (by decide)⟩
  case h_3 => exact ⟨.tokStar, Token.spells_alone rfl rfl (by decide)⟩
  case h_4 => exact ⟨.tokSlash, Token.spells_alone rfl rfl (by decide)⟩
  case h_5 => exact ⟨.tokGt, Token.spells_alone rfl rfl (by decide)⟩
  case h_6 => exact ⟨.tokLt, Token.spells_alone rfl rfl (by decide)⟩
  case h_7 => exact ⟨.tokLparen, Token.spells_alone rfl rfl (by decide)⟩
  case h_8 => exact ⟨.tokRparen, Token.spells_alone rfl rfl (by decide)⟩
  case h_9 => exact ⟨.tokLbrace, Token.spells_alone rfl rfl (by decide)⟩
  case h_10 => exact ⟨.tokRbrace, Token.spells_alone rfl rfl (by decide)⟩
  case h_11 => cases hc

/-- The conditions on a text, together. -/
structure Lexical (cs : List Char) : Prop where
  expected : ∀ c ∈ cs, expected c = true
  short : ¬ Overlong cs
  numerals : NumeralsFit cs

section Steps

variable {c : Char} {rest : List Char}

/-- What follows a character that is in no run is lexical too. -/
theorem Lexical.tail (hc : isalnum c = false) (h : Lexical (c :: rest)) : Lexical rest :=
  ⟨fun d hd => h.expected d (List.mem_cons_of_mem c hd),
    fun ho => h.short ((overlong_cons hc).mpr ho), (numeralsFit_cons hc).mp h.numerals⟩

/-- What is left behind a whole word or number, and the length of that. -/
theorem Lexical.whole {w : List Char} (hw : Whole w rest)
    (hend : ∀ d, rest.head? = some d → isdigit d = false) (h : Lexical (w ++ rest)) :
    w.length < 32 ∧ Lexical rest := by
  have hshort := h.short
  rw [hw.overlong_iff, not_or, Nat.not_le] at hshort
  exact ⟨hshort.1, fun d hd => h.expected d (List.mem_append_right w hd), hshort.2,
    ((numeralsFit_append hw.run.isalnum hend).mp h.numerals).2⟩

/-- A piece can be taken off the text, and put back in front of what is written of the rest. -/
def Peels (cs : List Char) : Prop :=
  ∃ w rest, cs = w ++ rest ∧ w ≠ [] ∧ Lexical rest ∧
    ∀ lead ls, Written rest lead ls → ∃ lead ls, Written cs lead ls

/-- A blank in front of a lexical text is taken off. -/
theorem Lexical.peels_space (hc : isspace c = true) (h : Lexical (c :: rest)) :
    Peels (c :: rest) :=
  ⟨[c], rest, rfl, List.cons_ne_nil _ _, h.tail (isalnum_of_isspace hc),
    fun _ _ hwritten => ⟨_, _, hwritten.space hc⟩⟩

theorem Lexical.peels_word (hc : isalpha c = true) (h : Lexical (c :: rest)) :
    Peels (c :: rest) := by
  have hend : ∀ d, (rest.dropWhile isalnum).head? = some d → isalnum d = false :=
    fun d hd => head?_dropWhile_stop hd
  have hsplit : c :: rest = (c :: rest.takeWhile isalnum) ++ rest.dropWhile isalnum := by
    rw [List.cons_append, List.takeWhile_append_dropWhile]
  rw [hsplit] at h ⊢
  obtain ⟨hlen, hrest⟩ := h.whole (whole_word hc) fun d hd =>
    (Bool.or_eq_false_iff.mp (hend d hd)).2
  obtain ⟨t, ht, hword⟩ := exists_spells_word hc (fun d hd => List.mem_takeWhile_imp hd) hlen
  refine ⟨_, _, rfl, List.cons_ne_nil _ _, hrest, fun lead ls hwritten =>
    ⟨_, _, hwritten.lexeme ht fun d hd => ?_⟩⟩
  have hd := hend d hd
  have hnumber : t.isNumber = false := by
    cases t with
    | tokNum v => cases hword
    | _ => rfl
  have hequals : t ≠ .tokEq := by
    rintro rfl
    cases hword
  simp [continues, hd, hnumber, hequals]

theorem Lexical.peels_number (hc : isdigit c = true) (h : Lexical (c :: rest)) :
    Peels (c :: rest) := by
  have hend : ∀ d, ((c :: rest).dropWhile isdigit).head? = some d → isdigit d = false :=
    fun d hd => head?_dropWhile_stop hd
  have hwhole : Whole ((c :: rest).takeWhile isdigit) ((c :: rest).dropWhile isdigit) :=
    whole_number hc
  have hdigits : ∀ d ∈ (c :: rest).takeWhile isdigit, isdigit d = true :=
    fun d hd => List.mem_takeWhile_imp hd
  rw [← List.takeWhile_append_dropWhile (p := isdigit) (l := c :: rest)] at h
  obtain ⟨hlen, hrest⟩ := h.whole hwhole hend
  have hvalue := h.numerals _ hdigits (.inl (List.prefix_append _ _))
  refine ⟨_, _, List.takeWhile_append_dropWhile.symm, hwhole.ne_nil, hrest,
    fun lead ls hwritten => ⟨[], ?_⟩⟩
  have hspells := Spells.num hwhole.ne_nil hdigits (by omega) hvalue
  have hwritten := hwritten.lexeme hspells fun d hd => by
    simp [continues, Token.isWord, hend d hd]
  rw [List.takeWhile_append_dropWhile] at hwritten
  exact ⟨_, hwritten⟩

theorem Lexical.peels_single {type : TokenType} (hc : singleType c = some type)
    (h : Lexical (c :: rest)) : Peels (c :: rest) := by
  obtain ⟨halpha, hdigit, -, -⟩ := singleType_class hc
  have halnum : isalnum c = false := Bool.or_eq_false_iff.mpr ⟨halpha, hdigit⟩
  obtain ⟨t, ht, hstop⟩ := exists_spells_single hc
  exact ⟨[c], rest, rfl, List.cons_ne_nil _ _, h.tail halnum,
    fun _ _ hwritten => ⟨_, _, hwritten.lexeme ht fun d _ => hstop d⟩⟩

/-- `=` and `==` share their first character; the longer one is taken. -/
theorem Lexical.peels_equals (h : Lexical ('=' :: rest)) : Peels ('=' :: rest) := by
  have htail := h.tail (by decide)
  by_cases hrest : rest.head? = some '='
  · -- two of them are one token
    obtain ⟨r, rfl⟩ : ∃ r, rest = '=' :: r := by
      cases rest with
      | nil => cases hrest
      | cons d r =>
        obtain rfl := Option.some.inj hrest
        exact ⟨r, rfl⟩
    refine ⟨['=', '='], r, rfl, List.cons_ne_nil _ _, htail.tail (by decide),
      fun _ _ hwritten => ⟨_, _, hwritten.lexeme (t := .tokEqeq) (.sign rfl) fun d _ => ?_⟩⟩
    simp [continues, Token.isWord, Token.isNumber]
  · refine ⟨['='], rest, rfl, List.cons_ne_nil _ _, htail,
      fun _ _ hwritten => ⟨_, _, hwritten.lexeme (t := .tokEq) (.sign rfl) fun d hd => ?_⟩⟩
    have hne : d ≠ '=' := by
      rintro rfl
      exact hrest hd
    simp [continues, Token.isWord, Token.isNumber, hne]

/-- The cases of `lexRound`, on the text alone. -/
theorem Lexical.peels (h : Lexical (c :: rest)) : Peels (c :: rest) := by
  by_cases halpha : isalpha c = true
  · exact h.peels_word halpha
  by_cases hdigit : isdigit c = true
  · exact h.peels_number hdigit
  by_cases hspace : isspace c = true
  · exact h.peels_space hspace
  by_cases hequals : c = '='
  · subst hequals
    exact h.peels_equals
  have hc := h.expected c (List.mem_cons_self ..)
  simp only [Bool.not_eq_true] at halpha hdigit hspace
  simp only [Bytecode.expected, isalnum, halpha, hdigit, hspace, hequals, decide_false,
    Bool.false_or] at hc
  obtain ⟨type, htype⟩ := Option.isSome_iff_exists.mp hc
  exact h.peels_single htype

end Steps

/-- Every such text is written, by induction on its length. -/
theorem Lexical.exists_written {cs : List Char} (h : Lexical cs) :
    ∃ lead ls, Written cs lead ls := by
  induction hlen : cs.length using Nat.strong_induction_on generalizing cs with
  | _ n ih =>
    cases cs with
    | nil => exact ⟨[], [], rfl, List.forall_mem_nil _, .nil⟩
    | cons c rest =>
      obtain ⟨w, rest', heq, hne, hrest, hback⟩ := h.peels
      have hshorter := congrArg List.length heq
      have hpos := List.length_pos_iff.mpr hne
      rw [hlen, List.length_append] at hshorter
      obtain ⟨lead, ls, hwritten⟩ := ih _ (by omega) hrest rfl
      exact hback lead ls hwritten

/-! ## Writing lexemes into a text -/

section Writing

variable {c : Char} {w rest : List Char}

theorem expected_of_isalnum (hc : isalnum c = true) : expected c = true := by
  rw [expected, hc, Bool.true_or, Bool.true_or, Bool.true_or]

theorem Lexical.cons (hc : isalnum c = false) (hexpected : Bytecode.expected c = true)
    (h : Lexical rest) : Lexical (c :: rest) :=
  ⟨List.forall_mem_cons.mpr ⟨hexpected, h.expected⟩, fun ho => h.short ((overlong_cons hc).mp ho),
    (numeralsFit_cons hc).mpr h.numerals⟩

/-- A whole run in front of a lexical text: short enough, and its numerals fit. -/
theorem Lexical.append (hw : Whole w rest) (hlen : w.length < 32)
    (hend : ∀ d, rest.head? = some d → isdigit d = false)
    (hvalue : ∀ ds, (∀ d ∈ ds, isdigit d = true) → ds <+: w → decimal ds ≤ 2147483647)
    (h : Lexical rest) : Lexical (w ++ rest) := by
  refine ⟨fun d hd => ?_, ?_, (numeralsFit_append hw.run.isalnum hend).mpr ⟨hvalue, h.numerals⟩⟩
  · rcases List.mem_append.mp hd with hd | hd
    · exact expected_of_isalnum (hw.run.isalnum d hd)
    · exact h.expected d hd
  · rw [hw.overlong_iff, not_or, Nat.not_le]
    exact ⟨hlen, h.short⟩

/-- Every spelling fits into a `char[32]`. -/
theorem Spells.length_lt {t : Token} (h : Spells t w) : w.length < 32 := by
  cases h with
  | @ident x _ => exact x.short
  | num _ _ hlen _ => omega
  | sign h =>
    cases t with
    | tokNum v => cases h
    | tokIdent x => cases h
    | tokEof => cases h
    | _ =>
      obtain rfl := Option.some.inj h
      decide

theorem Lexical.word {t : Token} (ht : Spells t w) (hword : t.isWord = true)
    (hstop : ∀ d, rest.head? = some d → continues t d = false) (h : Lexical rest) :
    Lexical (w ++ rest) := by
  have hlen := ht.length_lt
  obtain ⟨c, v, rfl, hc, hv⟩ := ht.word hword
  have hend : ∀ d, rest.head? = some d → isalnum d = false := by
    intro d hd
    have hd := hstop d hd
    simp only [continues, hword, Bool.true_and, Bool.or_eq_false_iff] at hd
    exact hd.1.1
  have hwhole : Whole (c :: (v ++ rest).takeWhile isalnum) ((v ++ rest).dropWhile isalnum) :=
    whole_word hc
  rw [takeWhile_append_stop hv hend, dropWhile_append_stop hv hend] at hwhole
  refine h.append hwhole hlen (fun d hd => (Bool.or_eq_false_iff.mp (hend d hd)).2) ?_
  -- no number begins with a letter
  intro ds hds hpre
  cases ds with
  | nil => decide
  | cons d ds =>
    obtain ⟨rfl, -⟩ := List.cons_prefix_cons.mp hpre
    rw [isalpha_of_isdigit (hds d (List.mem_cons_self ..))] at hc
    cases hc

theorem Lexical.number (hne : w ≠ []) (hdigits : ∀ d ∈ w, isdigit d = true) (hlen : w.length ≤ 31)
    (hvalue : decimal w ≤ 2147483647) (hend : ∀ d, rest.head? = some d → isdigit d = false)
    (h : Lexical rest) : Lexical (w ++ rest) := by
  obtain ⟨c, v, rfl⟩ := List.exists_cons_of_ne_nil hne
  have hwhole : Whole ((c :: (v ++ rest)).takeWhile isdigit)
      ((c :: (v ++ rest)).dropWhile isdigit) :=
    whole_number (hdigits c (List.mem_cons_self ..))
  rw [← List.cons_append, takeWhile_append_stop hdigits hend, dropWhile_append_stop hdigits hend]
    at hwhole
  exact h.append hwhole (by omega) hend fun ds _ hpre =>
    (decimal_le_decimal hpre).trans hvalue

/-- Any spelt token in front of a lexical text. -/
theorem Lexical.spelled {t : Token} (ht : Spells t w)
    (hstop : ∀ d, rest.head? = some d → continues t d = false) (h : Lexical rest) :
    Lexical (w ++ rest) := by
  by_cases hword : t.isWord = true
  · exact h.word ht hword hstop
  cases ht with
  | ident _ => exact absurd rfl hword
  | num hne hdigits hlen hvalue =>
    refine h.number hne hdigits hlen hvalue fun d hd => ?_
    have hd := hstop d hd
    simpa [continues, Token.isWord, Token.isNumber] using hd
  | sign hsign =>
    cases t with
    | tokPrint | tokWhile | tokIf => exact absurd rfl hword
    | tokNum v => cases hsign
    | tokIdent x => cases hsign
    | tokEof => cases hsign
    | tokEqeq =>
      -- one sign after the other, each of them expected and in no run
      obtain rfl := Option.some.inj hsign
      exact (h.cons (by decide) (by decide)).cons (by decide) (by decide)
    | _ =>
      obtain rfl := Option.some.inj hsign
      exact h.cons (by decide) (by decide)

theorem Lexical.blanks {gap : List Char} (hgap : ∀ c ∈ gap, isspace c = true) (h : Lexical rest) :
    Lexical (gap ++ rest) := by
  induction gap with
  | nil => exact h
  | cons c gap ih =>
    have hc := hgap c (List.mem_cons_self ..)
    have hexpected : Bytecode.expected c = true := by
      rw [Bytecode.expected, hc, Bool.or_true, Bool.true_or, Bool.true_or]
    exact (ih fun d hd => hgap d (List.mem_cons_of_mem c hd)).cons (isalnum_of_isspace hc) hexpected

end Writing

/-- The lexemes one after the other, by induction on the list. -/
theorem lexical_written {ls : List Lexeme} (hapart : ls.IsChain Lexeme.Apart) :
    Lexical (written ls) := by
  induction ls with
  | nil => exact ⟨List.forall_mem_nil _, not_overlong_of_lt (by decide), numeralsFit_nil⟩
  | cons l ls ih =>
    obtain ⟨hl, hls⟩ := List.isChain_cons.mp hapart
    rw [written, List.flatMap_cons, List.append_assoc]
    exact ((ih hls).blanks l.blank).spelled l.spells fun d hd => Lexeme.stops hl hd

/-- **The texts that are written lists of tokens** are those of expected characters, with words
and numbers of at most 31 characters, and numbers that fit into an `int`. -/
theorem exists_printing_iff (source : CString) :
    (∃ p : Printing, p.source = source) ↔ Lexical source.chars := by
  constructor
  · rintro ⟨p, rfl⟩
    exact (lexical_written p.apart).blanks p.blank
  · intro h
    obtain ⟨lead, ls, hwritten⟩ := h.exists_written
    obtain ⟨chars, hnul⟩ := source
    obtain rfl := hwritten.eq
    exact ⟨⟨lead, ls, hwritten.blank, hwritten.apart⟩, rfl⟩

/-- The run of `lexer` on a written list. -/
theorem Printing.lexed (p : Printing) (junk : Junk) :
    ∃ f, LexesTo (junk.start p.source) f ∧ Lexed f p.tokens :=
  (Lexed.start junk p.source).gap p.blank (fun _ hs hcurrent => hs.lexemes p.apart hcurrent) rfl

/-- A run of rounds up to the end of the text is what `lexer` yields. -/
theorem LexesTo.yields {junk : Junk} {source : CString} {f : Lexing}
    (h : LexesTo (junk.start source) f) : Yields (fun n => lexer n junk source) f.finish := by
  obtain ⟨n, hn⟩ := h
  have hloop : lexLoop n (junk.start source) = .done f := hn
  refine ⟨n, ?_⟩
  show lexLoop n (junk.start source) >>= (fun s => .done s.finish) = _
  rw [hloop, Fueled.done_bind]

/-! ## The lexer -/

/-- More fuel does not change what the lexer returns. -/
theorem lexLoop_mono (s : Lexing) : FuelMono fun n => lexLoop n s := by
  intro n
  induction n generalizing s with
  | zero => exact .out_left _
  | succ n ih =>
    show Fueled.Approx (lexLoop (n + 1) s) (lexLoop (n + 1 + 1) s)
    rw [lexLoop, lexLoop]
    cases s.current with
    | nil => exact .refl _
    | cons c rest => exact .bind (.refl _) ih

theorem lexer_mono (junk : Junk) (source : CString) : FuelMono fun n => lexer n junk source :=
  (lexLoop_mono _).bind fun _ => .const _

/-- What `lexer` returns on a written list, by what the parser reads. -/
theorem Printing.lexer_yields (p : Printing) (junk : Junk) :
    ∃ r, Yields (fun n => lexer n junk p.source) r ∧
      (r.tokens.take (r.tokenCount + 1)).map RawToken.token? =
        (p.tokens ++ [Token.tokEof]).map some := by
  obtain ⟨f, hf, hlexed⟩ := p.lexed junk
  exact ⟨f.finish, hf.yields, hlexed.finish.1⟩

/-- **Lexing is the inverse of writing.** `source` is a written form of the tokens `ts` exactly
when it has no overlong word or number and no number above `INT_MAX`, and `lexer` returns on it,
with `ts` in its array. So a text is a written form of one list at most, and `lexer` finds it. -/
theorem lexer_exact (junk : Junk) (source : CString) (ts : List Token) :
    (∃ p : Printing, p.source = source ∧ p.tokens = ts) ↔
      ¬ Overlong source.chars ∧ NumeralsFit source.chars ∧
        ∃ r, Yields (fun n => lexer n junk source) r ∧
          (r.tokens.take (r.tokenCount + 1)).map RawToken.token? =
            (ts ++ [Token.tokEof]).map some := by
  constructor
  · rintro ⟨p, rfl, rfl⟩
    have hlexical := (exists_printing_iff p.source).mp ⟨p, rfl⟩
    exact ⟨hlexical.short, hlexical.numerals, p.lexer_yields junk⟩
  · rintro ⟨hshort, hnumerals, r, hr, htokens⟩
    have hexpected := (lexer_returns_iff junk source).mp ⟨r, hr⟩
    obtain ⟨p, rfl⟩ := (exists_printing_iff source).mpr ⟨hexpected, hshort, hnumerals⟩
    obtain ⟨r', hr', htokens'⟩ := p.lexer_yields junk
    obtain rfl := Yields.unique (lexer_mono junk p.source) hr hr'
    have hinj : Function.Injective (some : Token → Option Token) := fun _ _ h => Option.some.inj h
    have heq := List.map_injective_iff.mpr hinj (htokens'.symm.trans htokens)
    exact ⟨p, rfl, List.append_cancel_right heq⟩

end Bytecode

end SystemsProjects

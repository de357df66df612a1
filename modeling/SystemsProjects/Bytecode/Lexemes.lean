import Mathlib.Data.List.Chain
import SystemsProjects.Bytecode.LexerRules

/-!
# Lexing undoes printing

A list of tokens is written out by spelling each token and putting white space between
them. `Spells` says which spellings a token has: one, except that a number may have
leading zeros. `needsGap` says which neighbours must be kept apart. A `Printing` is a text
written out by these rules, with the list it spells.

`lexer_printing`: on every such text `lexer` returns exactly the list, and `TOK_EOF`.

The step lemma is `Lexed.spelled`: one round at a spelling takes the whole spelling and
nothing behind it, and sends the token it spells.

The induction of `Lexed.lexemes` is over the written list. What carries it is `Lexed`: the
tokens sent so far stand in the array and both scratch buffers are rewound, so that a round
depends on nothing but the text in front of it. That a round stops where the spelling ends is
what the gaps are for (`Lexeme.stops`).
-/

namespace SystemsProjects

namespace Bytecode

/-! ## Spellings -/

/-- The words that are no identifiers. -/
def keywords : List (List Char) :=
  [['p', 'r', 'i', 'n', 't'], ['w', 'h', 'i', 'l', 'e'], ['i', 'f']]

/-- A letter, letters and digits behind it, and not a keyword. -/
def Name.IsIdentifier (x : Name) : Prop :=
  (∃ c w, x.chars = c :: w ∧ isalpha c = true ∧ ∀ d ∈ w, isalnum d = true) ∧
    x.chars ∉ keywords

/-- The spelling of a token that has only one. -/
def Token.sign? : Token → Option (List Char)
  | .tokPlus => some ['+']
  | .tokMinus => some ['-']
  | .tokStar => some ['*']
  | .tokSlash => some ['/']
  | .tokEq => some ['=']
  | .tokEqeq => some ['=', '=']
  | .tokGt => some ['>']
  | .tokLt => some ['<']
  | .tokPrint => some ['p', 'r', 'i', 'n', 't']
  | .tokWhile => some ['w', 'h', 'i', 'l', 'e']
  | .tokIf => some ['i', 'f']
  | .tokLbrace => some ['\x7b']
  | .tokRbrace => some ['\x7d']
  | .tokLparen => some ['(']
  | .tokRparen => some [')']
  | .tokNum _ | .tokIdent _ | .tokEof => none

/-- The number that a run of decimal digits stands for. -/
def decimal (ds : List Char) : Nat := Nat.ofDigitChars 10 ds 0

/-- The text spells the token. -/
inductive Spells : Token → List Char → Prop
  | sign {t : Token} {w : List Char} (h : t.sign? = some w) : Spells t w
  | ident {x : Name} (h : x.IsIdentifier) : Spells (.tokIdent x) x.chars
  | num {ds : List Char} (hne : ds ≠ []) (hdigits : ∀ d ∈ ds, isdigit d = true)
      (hlen : ds.length ≤ 31) (hvalue : decimal ds ≤ 2147483647) :
      Spells (.tokNum (BitVec.ofNat 32 (decimal ds))) ds

/-! ## Neighbours -/

/-- A token that is spelt with letters and digits, the first of them a letter. -/
def Token.isWord : Token → Bool
  | .tokPrint | .tokWhile | .tokIf | .tokIdent _ => true
  | _ => false

/-- A token that is spelt with digits. -/
def Token.isNumber : Token → Bool
  | .tokNum _ => true
  | _ => false

/-- White space must stand between a word and a word or number, between two numbers, and
between `=` and `=` or `==`. -/
def needsGap (t u : Token) : Bool :=
  t.isWord && (u.isWord || u.isNumber) || t.isNumber && u.isNumber ||
    t = .tokEq && (u = .tokEq || u = .tokEqeq)

/-- The character would be read as a part of the token in front of it. -/
def continues (t : Token) (c : Char) : Bool :=
  t.isWord && isalnum c || t.isNumber && isdigit c || t = .tokEq && c = '='

/-! ## Character classes -/

theorem isalpha_iff (c : Char) : isalpha c = true ↔
    (65 ≤ c.toNat ∧ c.toNat ≤ 90) ∨ (97 ≤ c.toNat ∧ c.toNat ≤ 122) := by
  show (decide (65 ≤ c.val ∧ c.val ≤ 90) ||
    (decide (97 ≤ c.val) && decide (c.val ≤ 122))) = true ↔ _
  simp [UInt32.le_iff_toNat_le]

theorem isdigit_iff (c : Char) : isdigit c = true ↔ 48 ≤ c.toNat ∧ c.toNat ≤ 57 := by
  simp [isdigit, Char.isDigit, UInt32.le_iff_toNat_le]

theorem isspace_iff (c : Char) :
    isspace c = true ↔ c.toNat = 32 ∨ (9 ≤ c.toNat ∧ c.toNat ≤ 13) := by
  have hblank : c = ' ' ↔ c.toNat = 32 := by
    constructor
    · rintro rfl
      rfl
    · intro h
      exact Char.toNat_inj.mp h
  simp [isspace, hblank]

/-- White space is no part of any token. -/
theorem isalnum_of_isspace {c : Char} (h : isspace c = true) : isalnum c = false := by
  rw [isspace_iff] at h
  have halpha := isalpha_iff c
  have hdigit := isdigit_iff c
  rw [isalnum, Bool.or_eq_false_iff, ← Bool.not_eq_true, ← Bool.not_eq_true, halpha, hdigit]
  omega

theorem isalpha_of_isdigit {c : Char} (h : isdigit c = true) : isalpha c = false := by
  rw [isdigit_iff] at h
  rw [← Bool.not_eq_true, isalpha_iff]
  omega

theorem continues_of_isspace (t : Token) {c : Char} (h : isspace c = true) :
    continues t c = false := by
  have halnum := isalnum_of_isspace h
  have hdigit := (Bool.or_eq_false_iff.mp halnum).2
  have hequals : c ≠ '=' := by
    rintro rfl
    revert h
    decide
  simp [continues, halnum, hdigit, hequals]

/-- How a spelling begins. -/
theorem Spells.head {t : Token} {w : List Char} (h : Spells t w) :
    ∃ c v, w = c :: v ∧ isspace c = false ∧
      ((t.isWord = true ∧ isalpha c = true) ∨ (t.isNumber = true ∧ isdigit c = true) ∨
        (isalnum c = false ∧ (c = '=' → t = .tokEq ∨ t = .tokEqeq))) := by
  cases h with
  | sign h =>
    cases t with
    | tokNum v => cases h
    | tokIdent x => cases h
    | tokEof => cases h
    | tokPrint | tokWhile | tokIf =>
      -- the spelling of a keyword begins with a letter
      obtain rfl := Option.some.inj h
      exact ⟨_, _, rfl, by decide, .inl ⟨rfl, by decide⟩⟩
    | _ =>
      obtain rfl := Option.some.inj h
      exact ⟨_, _, rfl, by decide, .inr (.inr ⟨by decide, by decide⟩)⟩
  | @ident x h =>
    -- so does an identifier
    obtain ⟨⟨c, v, hchars, hc, -⟩, -⟩ := h
    have hspace : isspace c = false := by
      by_contra hspace
      rw [Bool.not_eq_false] at hspace
      have halnum := isalnum_of_isspace hspace
      rw [isalnum_of_isalpha hc] at halnum
      cases halnum
    exact ⟨c, v, hchars, hspace, .inl ⟨rfl, hc⟩⟩
  | num hne hdigits _ _ =>
    -- and a number with a digit
    obtain ⟨c, v, rfl⟩ := List.exists_cons_of_ne_nil hne
    have hc := hdigits c (List.mem_cons_self ..)
    have hspace : isspace c = false := by
      by_contra hspace
      rw [Bool.not_eq_false] at hspace
      have halnum := isalnum_of_isspace hspace
      rw [isalnum_of_isdigit hc] at halnum
      cases halnum
    exact ⟨c, v, rfl, hspace, .inr (.inl ⟨rfl, hc⟩)⟩

/-- A spelling that needs no gap does not continue the token in front of it. -/
theorem Spells.continues_of_needsGap {t u : Token} {c : Char} {v : List Char}
    (h : Spells u (c :: v)) (hgap : needsGap t u = false) : continues t c = false := by
  obtain ⟨c', v', hw, -, hclass⟩ := h.head
  obtain ⟨rfl, -⟩ := List.cons.inj hw
  rw [needsGap, Bool.or_eq_false_iff, Bool.or_eq_false_iff] at hgap
  obtain ⟨⟨hword, hnumber⟩, hequals⟩ := hgap
  rw [continues, Bool.or_eq_false_iff, Bool.or_eq_false_iff]
  rcases hclass with ⟨hu, hc⟩ | ⟨hu, hc⟩ | ⟨halnum, hc⟩
  · -- a letter would only go on a word
    have ht : t.isWord = false := by simpa [hu] using hword
    have hdigit : isdigit c = false := by
      by_contra hdigit
      rw [Bool.not_eq_false] at hdigit
      rw [isalpha_of_isdigit hdigit] at hc
      cases hc
    have hne : c ≠ '=' := by
      rintro rfl
      revert hc
      decide
    simp [ht, hdigit, hne]
  · -- a digit would go on a word or a number
    have ht : t.isWord = false := by simpa [hu] using hword
    have ht' : t.isNumber = false := by simpa [hu] using hnumber
    have hne : c ≠ '=' := by
      rintro rfl
      revert hc
      decide
    simp [ht, ht', hne]
  · -- and of the signs, only `=` goes on anything
    have hdigit : isdigit c = false := (Bool.or_eq_false_iff.mp halnum).2
    refine ⟨by simp [halnum, hdigit], ?_⟩
    rw [Bool.and_eq_false_iff, decide_eq_false_iff_not, decide_eq_false_iff_not]
    by_contra hboth
    rw [not_or, not_not, not_not] at hboth
    have hu := hc hboth.2
    simp only [hboth.1, decide_true, Bool.true_and, Bool.or_eq_false_iff,
      decide_eq_false_iff_not] at hequals
    rcases hu with hu | hu
    · exact hequals.1 hu
    · exact hequals.2 hu

/-! ## One round -/

/-- The loop has sent the tokens `ts`, and both scratch buffers are rewound. -/
structure Lexed (s : Lexing) (ts : List Token) : Prop where
  pointer : s.tokens.pointer = ts.length
  room : s.tokens.pointer ≤ s.tokens.cells.length
  tokens : (s.tokens.cells.take ts.length).map RawToken.token? = ts.map some
  wordPointer : s.wordBuilder.pointer = 0
  numPointer : s.numBuilder.pointer = 0

section Rounds

variable {s s' : Lexing} {ts : List Token} {t : Token} {w rest : List Char}

/-- One more token at the end of the array. -/
theorem Lexed.send (h : Lexed s ts) (htokens : s'.tokens = s.tokens.push s'.tokenToSend)
    (ht : s'.tokenToSend.token? = some t) (hword : s'.wordBuilder.pointer = 0)
    (hnum : s'.numBuilder.pointer = 0) : Lexed s' (ts ++ [t]) := by
  have hpointer : (ts ++ [t]).length = s.tokens.pointer + 1 := by
    rw [h.pointer, List.length_append]
    rfl
  refine ⟨?_, ?_, ?_, hword, hnum⟩
  · rw [htokens, hpointer, Scratch.push_pointer]
  · rw [htokens, Scratch.push_pointer, Scratch.push_cells]
    exact Scratch.length_le_store h.room _
  · rw [htokens, hpointer, Scratch.push_cells, Scratch.take_store h.room, List.map_append,
      List.map_append, h.pointer, h.tokens]
    simp [ht]

/-- A name is read back from the cells it was written to, up to the first NUL. -/
theorem Name.ofCells?_eq {cells : List Char} {x : Name} (h : cstring cells = x.chars) :
    Name.ofCells? cells = some x := by
  obtain ⟨chars, hshort, hnul⟩ := x
  obtain rfl : cstring cells = chars := h
  rw [Name.ofCells?, dif_pos hshort]

/-- The token sent for a word. -/
theorem sendWord_token? (s : Lexing) (hw : cstring s.wordBuilder.cells = w) (ht : Spells t w)
    (hword : t.isWord = true) : s.sendWord.tokenToSend.token? = some t := by
  simp only [Lexing.sendWord]
  rw [hw]
  cases ht with
  | sign h =>
    cases t with
    | tokPrint | tokWhile | tokIf =>
      obtain rfl := Option.some.inj h
      rfl
    | tokIdent x => cases h
    | _ => cases hword
  | @ident x h =>
    -- an identifier is none of the three keywords
    have hne : ∀ k ∈ keywords, x.chars ≠ k := fun k hk heq => h.2 (heq ▸ hk)
    rw [if_neg (hne _ (by simp [keywords])), if_neg (hne _ (by simp [keywords])),
      if_neg (hne _ (by simp [keywords]))]
    -- `strcpy` has put it into `tokenToSend.name`, up to its NUL
    obtain ⟨r, hcells⟩ := (strcpy_spec ⟨s.tokenToSend.name, 0, s.nameWritten⟩ hw).1
    have hchars : cstring (x.chars ++ nul :: r) = x.chars := by
      refine cstring_append fun c hc heq => ?_
      rw [heq] at hc
      exact x.noNul hc
    show (Name.ofCells? (strcpy _ s.wordBuilder.cells).cells).map Token.tokIdent = _
    rw [hcells, Name.ofCells?_eq hchars]
    rfl
  | num _ _ _ _ => cases hword

/-- The letters of a word. -/
theorem Spells.word (h : Spells t w) (hword : t.isWord = true) :
    ∃ c v, w = c :: v ∧ isalpha c = true ∧ ∀ d ∈ v, isalnum d = true := by
  cases h with
  | sign h =>
    cases t with
    | tokPrint | tokWhile | tokIf =>
      obtain rfl := Option.some.inj h
      exact ⟨_, _, rfl, by decide, List.all_eq_true.mp (by decide)⟩
    | tokIdent x => cases h
    | _ => cases hword
  | ident h => exact h.1
  | num _ _ _ _ => cases hword

/-- A word of the text: a keyword or a name is stored, and the lexer is behind it. -/
theorem Lexed.word (h : Lexed s ts) (ht : Spells t w) (hword : t.isWord = true)
    (hcurrent : s.current = w ++ rest)
    (hstop : ∀ c, rest.head? = some c → continues t c = false) :
    ∃ c r s', s.current = c :: r ∧ lexRound s c r = .done s' ∧ Lexed s' (ts ++ [t]) ∧
      s'.current = rest := by
  obtain ⟨c, v, rfl, hc, hv⟩ := ht.word hword
  -- the token behind does not go on the word
  have hend : ∀ d, rest.head? = some d → isalnum d = false := by
    intro d hd
    have hd := hstop d hd
    simp only [continues, hword, Bool.true_and, Bool.or_eq_false_iff] at hd
    exact hd.1.1
  have htake := takeWhile_append_stop hv hend
  have hdrop := dropWhile_append_stop hv hend
  have hround : WordRound s (c :: (v ++ rest).takeWhile isalnum) (s.word c (v ++ rest)) :=
    wordRound h.wordPointer hc
  refine ⟨c, v ++ rest, s.word c (v ++ rest), hcurrent, if_pos hc, ?_, ?_⟩
  · refine h.send hround.tokens ?_ hround.wordPointer ?_
    · rw [word_eq, htake, hdrop]
      -- the string in `wordBuilder` is the word, so its token is sent
      refine sendWord_token? (s.atWord (c :: v) rest) ?_ ht hword
      refine (filled_spec h.wordPointer fun d hd => ?_).1
      rcases List.mem_cons.mp hd with rfl | hd
      · exact ne_nul_of_isalnum (isalnum_of_isalpha hc)
      · exact ne_nul_of_isalnum (hv d hd)
    · rw [hround.numBuilder]
      exact h.numPointer
  · rw [word_current, hdrop]

/-- A number of the text: its value is stored, and the lexer is behind it. -/
theorem Lexed.number (h : Lexed s ts) {ds : List Char} (hne : ds ≠ [])
    (hdigits : ∀ d ∈ ds, isdigit d = true) (hvalue : decimal ds ≤ 2147483647)
    (hcurrent : s.current = ds ++ rest) (hend : ∀ c, rest.head? = some c → isdigit c = false) :
    ∃ c r s', s.current = c :: r ∧ lexRound s c r = .done s' ∧
      Lexed s' (ts ++ [.tokNum (BitVec.ofNat 32 (decimal ds))]) ∧ s'.current = rest := by
  obtain ⟨c, v, rfl⟩ := List.exists_cons_of_ne_nil hne
  have hc := hdigits c (List.mem_cons_self ..)
  have hround := numberRound h.numPointer
  rw [hcurrent, takeWhile_append_stop hdigits hend] at hround
  refine ⟨c, v ++ rest, s.number, hcurrent, ?_, ?_, ?_⟩
  · rw [lexRound, isalpha_of_isdigit hc, if_neg Bool.false_ne_true, if_pos hc]
  · refine h.send hround.tokens ?_ ?_ hround.numPointer
    · -- the value is far below the limit of `strtol`
      have hmin : min (Nat.ofDigitChars 10 (c :: v) 0) (2 ^ 63 - 1) = decimal (c :: v) := by
        have : Nat.ofDigitChars 10 (c :: v) 0 = decimal (c :: v) := rfl
        omega
      rw [RawToken.token?, hround.type, hround.value, hmin]
    · rw [hround.wordBuilder]
      exact h.wordPointer
  · rw [number_current, hcurrent, dropWhile_append_stop hdigits hend]

/-- A round that sends a token without the scratch buffers. -/
theorem Lexed.sign (h : Lexed s ts) {type : TokenType} (hround : SignRound s s' type)
    (ht : ∀ r : RawToken, r.type = type → r.token? = some t) : Lexed s' (ts ++ [t]) := by
  refine h.send hround.tokens (ht _ hround.type) ?_ ?_
  · rw [hround.wordBuilder]
    exact h.wordPointer
  · rw [hround.numBuilder]
    exact h.numPointer

/-- The one-character tokens are outside the classes that come first. -/
theorem singleType_class {c : Char} {type : TokenType} (hc : singleType c = some type) :
    isalpha c = false ∧ isdigit c = false ∧ isspace c = false ∧ c ≠ '=' := by
  unfold singleType at hc
  split at hc
  case h_11 => cases hc
  all_goals decide

theorem lexRound_single {c : Char} {type : TokenType} (hc : singleType c = some type)
    (s : Lexing) (rest : List Char) :
    lexRound s c rest = .done { s.sendType type with current := rest } := by
  obtain ⟨halpha, hdigit, hspace, hne⟩ := singleType_class hc
  simp only [lexRound, halpha, hdigit, hspace, Bool.false_eq_true, if_false, Lexing.switch,
    hne, hc]

theorem Lexed.single (h : Lexed s ts) {c : Char} {type : TokenType}
    (hc : singleType c = some type) (hcurrent : s.current = c :: rest)
    (ht : ∀ r : RawToken, r.type = type → r.token? = some t) :
    ∃ c r s', s.current = c :: r ∧ lexRound s c r = .done s' ∧ Lexed s' (ts ++ [t]) ∧
      s'.current = rest :=
  ⟨c, rest, _, hcurrent, lexRound_single hc s rest, h.sign (signRound s type rest) ht, rfl⟩

/-- One round at a spelling takes the spelling and sends the token it spells. -/
theorem Lexed.spelled (h : Lexed s ts) (ht : Spells t w) (hcurrent : s.current = w ++ rest)
    (hstop : ∀ c, rest.head? = some c → continues t c = false) :
    ∃ c r s', s.current = c :: r ∧ lexRound s c r = .done s' ∧ Lexed s' (ts ++ [t]) ∧
      s'.current = rest := by
  by_cases hword : t.isWord = true
  · exact h.word ht hword hcurrent hstop
  cases ht with
  | ident _ => exact absurd rfl hword
  | num hne hdigits _ hvalue =>
    refine h.number hne hdigits hvalue hcurrent fun c hc => ?_
    have hd := hstop c hc
    simpa [continues, Token.isWord, Token.isNumber] using hd
  | sign hsign =>
    cases t with
    | tokPrint | tokWhile | tokIf => exact absurd rfl hword
    | tokNum v => cases hsign
    | tokIdent x => cases hsign
    | tokEof => cases hsign
    | tokEq =>
      obtain rfl := Option.some.inj hsign
      -- the next character decides between `=` and `==`
      have hne : rest.head? ≠ some '=' := fun hd => by
        have := hstop '=' hd
        revert this
        decide
      refine ⟨'=', rest, _, hcurrent, ?_, h.sign (signRound s .tokEq rest) ?_, rfl⟩
      · exact if_neg hne
      · intro r hr
        rw [RawToken.token?, hr]
    | tokEqeq =>
      obtain rfl := Option.some.inj hsign
      refine ⟨'=', '=' :: rest, _, hcurrent, rfl, h.sign (signRound s .tokEqeq rest) ?_, rfl⟩
      intro r hr
      rw [RawToken.token?, hr]
    | _ =>
      obtain rfl := Option.some.inj hsign
      refine h.single rfl hcurrent fun r hr => ?_
      rw [RawToken.token?, hr]

/-- A round at white space sends nothing. -/
theorem Lexed.space (h : Lexed s ts) : Lexed { s with current := rest } ts :=
  ⟨h.pointer, h.room, h.tokens, h.wordPointer, h.numPointer⟩

theorem lexRound_space {c : Char} (hc : isspace c = true) (s : Lexing) (rest : List Char) :
    lexRound s c rest = .done { s with current := rest } := by
  have halnum := isalnum_of_isspace hc
  obtain ⟨halpha, hdigit⟩ := Bool.or_eq_false_iff.mp halnum
  simp only [lexRound, halpha, hdigit, hc, Bool.false_eq_true, if_false, if_true]

end Rounds

/-! ## Written lists of tokens -/

/-- A spelled token with the white space behind it. -/
structure Lexeme where
  token : Token
  text : List Char
  gap : List Char
  spells : Spells token text
  blank : ∀ c ∈ gap, isspace c = true

/-- The gap between two neighbours is there when they need one. -/
def Lexeme.Apart (l m : Lexeme) : Prop := needsGap l.token m.token = true → l.gap ≠ []

/-- The text of a list of lexemes. -/
def written (ls : List Lexeme) : List Char := ls.flatMap fun l => l.text ++ l.gap

/-- A written list of tokens: white space in front, then the lexemes. -/
structure Printing where
  lead : List Char
  lexemes : List Lexeme
  blank : ∀ c ∈ lead, isspace c = true
  apart : lexemes.IsChain Lexeme.Apart

/-- The list that was written. -/
def Printing.tokens (p : Printing) : List Token := p.lexemes.map Lexeme.token

theorem ne_nul_of_isspace {c : Char} (h : isspace c = true) : c ≠ nul := by
  rintro rfl
  revert h
  decide

/-- No spelling contains a NUL. -/
theorem Spells.noNul {t : Token} {w : List Char} (h : Spells t w) : nul ∉ w := by
  cases h with
  | sign h =>
    cases t with
    | tokNum v => cases h
    | tokIdent x => cases h
    | tokEof => cases h
    | _ =>
      obtain rfl := Option.some.inj h
      decide
  | @ident x _ => exact x.noNul
  | num _ hdigits _ _ =>
    intro hmem
    exact ne_nul_of_isalnum (isalnum_of_isdigit (hdigits _ hmem)) rfl

/-- The source text. -/
def Printing.source (p : Printing) : CString where
  chars := p.lead ++ written p.lexemes
  noNul := by
    intro hmem
    rcases List.mem_append.mp hmem with hlead | hmem
    · exact ne_nul_of_isspace (p.blank _ hlead) rfl
    · obtain ⟨l, -, hl⟩ := List.mem_flatMap.mp hmem
      rcases List.mem_append.mp hl with htext | hgap
      · exact l.spells.noNul htext
      · exact ne_nul_of_isspace (l.blank _ hgap) rfl

/-- Every list of tokens that have spellings can be written, with one blank behind each. -/
theorem exists_printing {ts : List Token} (h : ∀ t ∈ ts, ∃ w, Spells t w) :
    ∃ p : Printing, p.tokens = ts := by
  have hlexemes : ∃ ls : List Lexeme, ls.map Lexeme.token = ts ∧ ∀ l ∈ ls, l.gap ≠ [] := by
    induction ts with
    | nil => exact ⟨[], rfl, by simp⟩
    | cons t ts ih =>
      obtain ⟨w, hw⟩ := h t (List.mem_cons_self ..)
      obtain ⟨ls, htokens, hgaps⟩ := ih fun u hu => h u (List.mem_cons_of_mem t hu)
      refine ⟨⟨t, w, [' '], hw, by simp [isspace]⟩ :: ls, by rw [List.map_cons, htokens], ?_⟩
      intro l hl
      rcases List.mem_cons.mp hl with rfl | hl
      · exact List.cons_ne_nil _ _
      · exact hgaps l hl
  obtain ⟨ls, htokens, hgaps⟩ := hlexemes
  refine ⟨⟨[], ls, by simp, ?_⟩, htokens⟩
  -- every gap is there, whether it is needed or not
  induction ls generalizing ts with
  | nil => exact .nil
  | cons l ls ih =>
    refine List.isChain_cons.mpr ⟨fun m _ _ => hgaps l (List.mem_cons_self ..), ?_⟩
    exact ih (fun t ht => h t (by rw [← htokens]; exact List.mem_cons_of_mem _ ht)) rfl
      fun m hm => hgaps m (List.mem_cons_of_mem l hm)

/-! ## Runs -/

/-- The loop, started with the locals `s`, ends with the locals `f`. -/
def LexesTo (s f : Lexing) : Prop := Yields (fun n => lexLoop n s) f

theorem LexesTo.round {s s' f : Lexing} {c : Char} {rest : List Char}
    (hcurrent : s.current = c :: rest) (hround : lexRound s c rest = .done s')
    (h : LexesTo s' f) : LexesTo s f := by
  obtain ⟨n, hn⟩ := h
  refine ⟨n + 1, ?_⟩
  show lexLoop (n + 1) s = .done f
  rw [lexLoop_cons hcurrent, hround]
  exact hn

section Runs

variable {ts : List Token} {P : Lexing → Prop}

/-- White space is passed over. -/
theorem Lexed.gap {gap rest : List Char} (hgap : ∀ c ∈ gap, isspace c = true)
    (hrest : ∀ s, Lexed s ts → s.current = rest → ∃ f, LexesTo s f ∧ P f) {s : Lexing}
    (h : Lexed s ts) (hcurrent : s.current = gap ++ rest) : ∃ f, LexesTo s f ∧ P f := by
  induction gap generalizing s with
  | nil => exact hrest s h hcurrent
  | cons c gap ih =>
    have hround := lexRound_space (hgap c (List.mem_cons_self ..)) s (gap ++ rest)
    obtain ⟨f, hf, hP⟩ := ih (fun d hd => hgap d (List.mem_cons_of_mem c hd)) h.space rfl
    exact ⟨f, hf.round hcurrent hround, hP⟩

/-- What stands behind a lexeme does not continue its token. -/
theorem Lexeme.stops {l : Lexeme} {ls : List Lexeme}
    (happart : ∀ m ∈ ls.head?, Lexeme.Apart l m) {c : Char}
    (hc : (l.gap ++ written ls).head? = some c) : continues l.token c = false := by
  cases hgap : l.gap with
  | cons d gap =>
    rw [hgap] at hc
    obtain rfl : d = c := Option.some.inj hc
    refine continues_of_isspace l.token (l.blank d ?_)
    rw [hgap]
    exact List.mem_cons_self ..
  | nil =>
    rw [hgap, List.nil_append] at hc
    cases ls with
    | nil => cases hc
    | cons m ls =>
      -- no gap, so the neighbours do not need one
      have hneeds : needsGap l.token m.token = false := by
        by_contra hneeds
        exact happart m rfl (Bool.not_eq_false _ ▸ hneeds) hgap
      obtain ⟨d, v, htext, -⟩ := m.spells.head
      rw [written, List.flatMap_cons, htext] at hc
      obtain rfl : d = c := Option.some.inj hc
      have hspells := m.spells
      rw [htext] at hspells
      exact hspells.continues_of_needsGap hneeds

/-- The loop over a written list, by induction on the list. -/
theorem Lexed.lexemes {ls : List Lexeme} (hapart : ls.IsChain Lexeme.Apart) {s : Lexing}
    (h : Lexed s ts) (hcurrent : s.current = written ls) :
    ∃ f, LexesTo s f ∧ Lexed f (ts ++ ls.map Lexeme.token) := by
  induction ls generalizing s ts with
  | nil =>
    refine ⟨s, ⟨1, lexLoop_nil hcurrent 0⟩, ?_⟩
    rw [List.map_nil, List.append_nil]
    exact h
  | cons l ls ih =>
    obtain ⟨hl, hls⟩ := List.isChain_cons.mp hapart
    rw [written, List.flatMap_cons, List.append_assoc] at hcurrent
    obtain ⟨c, r, s', hcr, hround, hs', hrest⟩ := h.spelled l.spells hcurrent
      fun d hd => Lexeme.stops hl hd
    obtain ⟨f, hf, hlexed⟩ := hs'.gap l.blank (fun s'' h'' hcurrent'' => ih hls h'' hcurrent'')
      hrest
    refine ⟨f, hf.round hcr hround, ?_⟩
    rw [List.map_cons]
    rwa [List.append_assoc] at hlexed

end Runs

/-- The locals the loop is entered with. -/
theorem Lexed.start (junk : Junk) (source : CString) : Lexed (junk.start source) [] :=
  ⟨rfl, Nat.zero_le _, rfl, rfl, rfl⟩

/-- `TOK_EOF` goes behind the tokens. -/
theorem Lexed.finish {s : Lexing} {ts : List Token} (h : Lexed s ts) :
    (s.finish.tokens.take (s.finish.tokenCount + 1)).map RawToken.token? =
      (ts ++ [Token.tokEof]).map some ∧ s.finish.tokenCount = ts.length := by
  refine ⟨?_, h.pointer⟩
  show ((Scratch.store s.tokens.cells s.tokens.pointer _).take (s.tokens.pointer + 1)).map
    RawToken.token? = _
  rw [Scratch.take_store h.room, List.map_append, List.map_append, h.pointer, h.tokens]
  rfl

/-- **Lexing undoes printing.** On a written list of tokens `lexer` returns that list,
followed by `TOK_EOF`, with the length of the list in `*token_count`, whatever its locals
and its array held before. -/
theorem lexer_printing (p : Printing) (junk : Junk) :
    ∃ r, Yields (fun n => lexer n junk p.source) r ∧
      (r.tokens.take (r.tokenCount + 1)).map RawToken.token? =
        (p.tokens ++ [Token.tokEof]).map some ∧
      r.tokenCount = p.tokens.length := by
  obtain ⟨f, ⟨n, hn⟩, hf⟩ := (Lexed.start junk p.source).gap p.blank
    (fun s hs hcurrent => hs.lexemes p.apart hcurrent) rfl
  refine ⟨f.finish, ⟨n, ?_⟩, hf.finish⟩
  have hloop : lexLoop n (junk.start p.source) = .done f := hn
  show lexLoop n (junk.start p.source) >>= (fun s => .done s.finish) = _
  rw [hloop, Fueled.done_bind]

end Bytecode

end SystemsProjects

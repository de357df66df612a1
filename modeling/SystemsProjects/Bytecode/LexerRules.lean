import SystemsProjects.Bytecode.Lexer

/-!
# Rules for the lexer's rounds

What one round of the loop does to the locals, said once for each kind of round.

- `lexRound_eq_done`: the five kinds, by the text at `current`.
- `WordRound`, `NumberRound`, `SignRound`: what a round leaves in the scratch buffers
  and in the array. The buffers are shared by all rounds; that their indices are zero
  again when a round ends is what makes a round independent of the ones before it.

The loops that fill a scratch buffer are put into closed form here (`word_eq`, with `fill` of
`Scratch`), so the later modules speak about the word in front of the cursor and not about the
index that runs through it.
-/

namespace SystemsProjects

namespace Bytecode

/-! ## Strings -/

theorem ne_nul_of_isalnum {c : Char} (h : isalnum c = true) : c ≠ nul := by
  rintro rfl
  revert h
  decide

theorem isalnum_of_isalpha {c : Char} (h : isalpha c = true) : isalnum c = true := by
  rw [isalnum, h, Bool.true_or]

theorem isalnum_of_isdigit {c : Char} (h : isdigit c = true) : isalnum c = true := by
  rw [isalnum, h, Bool.or_true]

/-- The string in front of the first NUL. -/
theorem cstring_append {w rest : List Char} (h : ∀ c ∈ w, c ≠ nul) :
    cstring (w ++ nul :: rest) = w := by
  refine takeWhile_append_stop (fun c hc => ?_) fun c hc => ?_
  · simpa using h c hc
  · obtain rfl : nul = c := Option.some.inj hc
    simp

/-- A copied string, and the indices it was written at. -/
theorem strcpy_spec (dst : Scratch Char) {src w : List Char} (h : cstring src = w) :
    (∃ rest, (strcpy dst src).cells = w ++ nul :: rest) ∧
      (strcpy dst src).written = dst.written ++ List.range' 0 (w.length + 1) := by
  rw [strcpy, h]
  refine ⟨Scratch.cells_pushAll_put _ w nul rfl, ?_⟩
  rw [Scratch.put_written, Scratch.written_pushAll, Scratch.pointer_pushAll, List.append_assoc,
    Scratch.rewind_pointer, Scratch.rewind_written, List.range'_concat]
  simp

/-! ## Words -/

/-- A scratch buffer of pointer zero after a loop has filled in `w` and closed it. -/
theorem filled_spec {b : Scratch Char} (h : b.pointer = 0) {w : List Char}
    (hw : ∀ c ∈ w, c ≠ nul) :
    cstring ((b.pushAll w).put nul).cells = w ∧
      ((b.pushAll w).put nul).written = b.written ++ List.range' 0 (w.length + 1) := by
  obtain ⟨rest, hcells⟩ := b.cells_pushAll_put w nul h
  constructor
  · rw [hcells, cstring_append hw]
  · rw [Scratch.put_written, Scratch.written_pushAll, Scratch.pointer_pushAll, h,
      List.append_assoc, List.range'_concat]
    simp

section Rounds

variable {s s' : Lexing} {c : Char} {rest w : List Char}

/-- The two ways a word becomes a token. -/
theorem sendWord_cases (s : Lexing) :
    (∃ type, s.sendWord = s.sendType type) ∨ s.sendWord = s.sendIdent := by
  simp only [Lexing.sendWord]
  split
  · exact .inl ⟨_, rfl⟩
  · split
    · exact .inl ⟨_, rfl⟩
    · split
      · exact .inl ⟨_, rfl⟩
      · exact .inr rfl

/-- What a round at the word `w` leaves. -/
structure WordRound (s : Lexing) (w : List Char) (s' : Lexing) : Prop where
  tokens : s'.tokens = s.tokens.push s'.tokenToSend
  wordPointer : s'.wordBuilder.pointer = 0
  wordWritten : s'.wordBuilder.written = s.wordBuilder.written ++ List.range' 0 (w.length + 1)
  numBuilder : s'.numBuilder = s.numBuilder
  nameWritten : s'.nameWritten = s.nameWritten ∨
    s'.nameWritten = s.nameWritten ++ List.range' 0 (w.length + 1)

/-- The locals when the word `w` has been read and `rest` is left. -/
def Lexing.atWord (s : Lexing) (w rest : List Char) : Lexing :=
  { s with wordBuilder := (s.wordBuilder.pushAll w).put nul, current := rest }

/-- The word loop in closed form: the run of letters and digits goes to the builder and is sent. -/
theorem word_eq (s : Lexing) (c : Char) (rest : List Char) :
    s.word c rest =
      { (s.atWord (c :: rest.takeWhile isalnum) (rest.dropWhile isalnum)).sendWord with
        wordBuilder := (s.atWord (c :: rest.takeWhile isalnum)
          (rest.dropWhile isalnum)).sendWord.wordBuilder.rewind } := by
  rw [Lexing.word, Scratch.fill_eq]
  rfl

theorem isalnum_of_mem_word (hc : isalpha c = true) :
    ∀ d ∈ c :: rest.takeWhile isalnum, isalnum d = true := by
  intro d hd
  rcases List.mem_cons.mp hd with rfl | hmem
  · exact isalnum_of_isalpha hc
  · exact List.mem_takeWhile_imp hmem

theorem word_current (s : Lexing) (c : Char) (rest : List Char) :
    (s.word c rest).current = rest.dropWhile isalnum := by
  rw [word_eq]
  rcases sendWord_cases (s.atWord (c :: rest.takeWhile isalnum) (rest.dropWhile isalnum)) with
    ⟨type, h⟩ | h
  · rw [h]
    rfl
  · rw [h]
    rfl

/-- The round of a word, with every buffer it writes. -/
theorem wordRound (hp : s.wordBuilder.pointer = 0) (hc : isalpha c = true) :
    WordRound s (c :: rest.takeWhile isalnum) (s.word c rest) := by
  have hw : ∀ d ∈ c :: rest.takeWhile isalnum, d ≠ nul :=
    fun d hd => ne_nul_of_isalnum (isalnum_of_mem_word hc d hd)
  obtain ⟨hstring, hwritten⟩ := filled_spec hp hw
  rw [word_eq]
  rcases sendWord_cases (s.atWord (c :: rest.takeWhile isalnum) (rest.dropWhile isalnum)) with
    ⟨type, h⟩ | h
  · rw [h]
    exact ⟨rfl, rfl, hwritten, rfl, .inl rfl⟩
  · rw [h]
    -- `strcpy` writes the name at the indices the word was written at
    have hname := (strcpy_spec ⟨s.tokenToSend.name, 0, s.nameWritten⟩ hstring).2
    exact ⟨rfl, rfl, hwritten, rfl, .inr hname⟩

/-- What a round at the number `w` leaves. -/
structure NumberRound (s : Lexing) (w : List Char) (s' : Lexing) : Prop where
  tokens : s'.tokens = s.tokens.push s'.tokenToSend
  numPointer : s'.numBuilder.pointer = 0
  numWritten : s'.numBuilder.written = s.numBuilder.written ++ List.range' 0 (w.length + 1)
  wordBuilder : s'.wordBuilder = s.wordBuilder
  nameWritten : s'.nameWritten = s.nameWritten
  type : s'.tokenToSend.type = .tokNum
  value : s'.tokenToSend.value =
    BitVec.ofNat 32 (min (Nat.ofDigitChars 10 w 0) (2 ^ 63 - 1))

theorem number_current (s : Lexing) : s.number.current = s.current.dropWhile isdigit := by
  rw [Lexing.number, Scratch.fill_eq]
  rfl

/-- The round of a number, with every buffer it writes. -/
theorem numberRound (hp : s.numBuilder.pointer = 0) :
    NumberRound s (s.current.takeWhile isdigit) s.number := by
  have hdigits : ∀ d ∈ s.current.takeWhile isdigit, isdigit d = true :=
    fun d hd => List.mem_takeWhile_imp hd
  have hw : ∀ d ∈ s.current.takeWhile isdigit, d ≠ nul :=
    fun d hd => ne_nul_of_isalnum (isalnum_of_isdigit (hdigits d hd))
  obtain ⟨hstring, hwritten⟩ := filled_spec hp hw
  rw [Lexing.number, Scratch.fill_eq]
  refine ⟨rfl, rfl, hwritten, rfl, rfl, rfl, ?_⟩
  show atoi _ = _
  rw [atoi, Scratch.rewind_cells, hstring, List.takeWhile_eq_self_iff.mpr hdigits]

/-- A round that sends a token without touching the scratch buffers. -/
structure SignRound (s s' : Lexing) (type : TokenType) : Prop where
  tokens : s'.tokens = s.tokens.push s'.tokenToSend
  wordBuilder : s'.wordBuilder = s.wordBuilder
  numBuilder : s'.numBuilder = s.numBuilder
  nameWritten : s'.nameWritten = s.nameWritten
  type : s'.tokenToSend.type = type

theorem signRound (s : Lexing) (type : TokenType) (rest : List Char) :
    SignRound s { s.sendType type with current := rest } type := ⟨rfl, rfl, rfl, rfl, rfl⟩

/-- The kinds of rounds, by the text `c :: rest` they start at. -/
inductive RoundAt (s : Lexing) (c : Char) (rest : List Char) : Lexing → Prop
  | word (hc : isalpha c = true) : RoundAt s c rest (s.word c rest)
  | number (hc : isdigit c = true) : RoundAt s c rest s.number
  | space (hc : isspace c = true) : RoundAt s c rest { s with current := rest }
  | equals (hc : c = '=') (hrest : rest.head? ≠ some '=') :
      RoundAt s c rest { s.sendType .tokEq with current := rest }
  | double (hc : c = '=') (hrest : rest.head? = some '=') :
      RoundAt s c rest { s.sendType .tokEqeq with current := rest.tail }
  | single {type : TokenType} (hc : singleType c = some type) :
      RoundAt s c rest { s.sendType type with current := rest }

/-- A round that goes through is of one of these kinds. -/
theorem lexRound_eq_done (h : lexRound s c rest = .done s') : RoundAt s c rest s' := by
  rw [lexRound] at h
  -- the tests are made in the order of the source
  by_cases hword : isalpha c = true
  · rw [if_pos hword] at h
    obtain rfl := Fueled.done.inj h
    exact .word hword
  rw [if_neg hword] at h
  by_cases hnumber : isdigit c = true
  · rw [if_pos hnumber] at h
    obtain rfl := Fueled.done.inj h
    exact .number hnumber
  rw [if_neg hnumber] at h
  by_cases hspace : isspace c = true
  · rw [if_pos hspace] at h
    obtain rfl := Fueled.done.inj h
    exact .space hspace
  rw [if_neg hspace, Lexing.switch] at h
  by_cases heq : c = '='
  · rw [if_pos heq] at h
    -- `*(current+1)` decides between `=` and `==`
    by_cases hrest : rest.head? = some '='
    · rw [if_pos hrest] at h
      obtain rfl := Fueled.done.inj h
      exact .double heq hrest
    · rw [if_neg hrest] at h
      obtain rfl := Fueled.done.inj h
      exact .equals heq hrest
  · rw [if_neg heq] at h
    -- the default case of the `switch` exits
    cases htype : singleType c with
    | none =>
      rw [htype] at h
      cases h
    | some type =>
      rw [htype] at h
      obtain rfl := Fueled.done.inj h
      exact .single htype

end Rounds

/-! ## Runs of the loop -/

theorem lexLoop_nil {s : Lexing} (h : s.current = []) (n : Nat) : lexLoop (n + 1) s = .done s := by
  rw [lexLoop, h]

theorem lexLoop_cons {s : Lexing} {c : Char} {rest : List Char} (h : s.current = c :: rest)
    (n : Nat) : lexLoop (n + 1) s = lexRound s c rest >>= lexLoop n := by
  rw [lexLoop, h]

/-- What `lexer` returns is what its loop has left. -/
theorem lexer_eq_done {n : Nat} {junk : Junk} {source : CString} {r : LexerResult}
    (h : lexer n junk source = .done r) :
    ∃ f, lexLoop n (junk.start source) = .done f ∧ r = f.finish := by
  rw [lexer, Fueled.bind_eq_done] at h
  obtain ⟨f, hf, hr⟩ := h
  exact ⟨f, hf, (Fueled.done.inj hr).symm⟩

/-! ## Unexpected characters -/

/-- A character that some round accepts. -/
def expected (c : Char) : Bool := isalnum c || isspace c || c = '=' || (singleType c).isSome

/-- No expected character makes the lexer exit. -/
theorem lexRound_expected {c : Char} (hc : expected c = true) (s : Lexing) (rest : List Char) :
    ∃ s', lexRound s c rest = .done s' := by
  rw [lexRound]
  split
  · exact ⟨_, rfl⟩
  · split
    · exact ⟨_, rfl⟩
    · split
      · exact ⟨_, rfl⟩
      · rename_i halpha hdigit hspace
        rw [Lexing.switch]
        by_cases heq : c = '='
        · rw [if_pos heq]
          split
          · exact ⟨_, rfl⟩
          · exact ⟨_, rfl⟩
        · rw [if_neg heq]
          cases htype : singleType c with
          | some type => exact ⟨_, rfl⟩
          | none => simp [expected, isalnum, halpha, hdigit, hspace, heq, htype] at hc

/-- A round takes at least one character, and only expected ones. -/
theorem RoundAt.piece {s s' : Lexing} {c : Char} {rest : List Char} (h : RoundAt s c rest s')
    (hcurrent : s.current = c :: rest) :
    ∃ w, s.current = w ++ s'.current ∧ w ≠ [] ∧ ∀ d ∈ w, expected d = true := by
  have halnum : ∀ {d : Char}, isalnum d = true → expected d = true := by
    intro d hd
    rw [expected, hd, Bool.true_or, Bool.true_or, Bool.true_or]
  cases h with
  | word hc =>
    -- the piece of each kind of round: the word, the number, or one character
    refine ⟨c :: rest.takeWhile isalnum, ?_, List.cons_ne_nil _ _, fun d hd => ?_⟩
    · rw [hcurrent, word_current, List.cons_append, List.takeWhile_append_dropWhile]
    · exact halnum (isalnum_of_mem_word hc d hd)
  | number hc =>
    refine ⟨(c :: rest).takeWhile isdigit, ?_, ?_, fun d hd => ?_⟩
    · rw [number_current, hcurrent, List.takeWhile_append_dropWhile]
    · rw [List.takeWhile_cons, if_pos hc]
      exact List.cons_ne_nil _ _
    · exact halnum (isalnum_of_isdigit (List.mem_takeWhile_imp hd))
  | space hc =>
    refine ⟨[c], hcurrent, List.cons_ne_nil _ _, fun d hd => ?_⟩
    rw [List.mem_singleton.mp hd, expected, hc, Bool.or_true, Bool.true_or, Bool.true_or]
  | equals hc hrest =>
    refine ⟨[c], hcurrent, List.cons_ne_nil _ _, fun d hd => ?_⟩
    rw [List.mem_singleton.mp hd, hc]
    decide
  | double hc hrest =>
    -- or two, for `==`
    obtain ⟨r, rfl⟩ : ∃ r, rest = '=' :: r := by
      cases rest with
      | nil => cases hrest
      | cons d r =>
        obtain rfl := Option.some.inj hrest
        exact ⟨r, rfl⟩
    refine ⟨[c, '='], hcurrent, List.cons_ne_nil _ _, fun d hd => ?_⟩
    rw [hc] at hd
    obtain rfl : d = '=' := by simpa using hd
    decide
  | single hc =>
    refine ⟨[c], hcurrent, List.cons_ne_nil _ _, fun d hd => ?_⟩
    rw [List.mem_singleton.mp hd, expected, hc, Option.isSome_some, Bool.or_true]

/-- The loop ends on a text of expected characters, by induction on what is left of it. -/
theorem lexLoop_expected (n : Nat) : ∀ s : Lexing, s.current.length ≤ n →
    (∀ c ∈ s.current, expected c = true) → ∃ f, lexLoop (n + 1) s = .done f := by
  induction n with
  | zero =>
    intro s hlen _
    exact ⟨s, lexLoop_nil (List.length_eq_zero_iff.mp (Nat.le_zero.mp hlen)) 0⟩
  | succ n ih =>
    intro s hlen hall
    cases hcurrent : s.current with
    | nil => exact ⟨s, lexLoop_nil hcurrent _⟩
    | cons c rest =>
      have hc : expected c = true := hall c (by rw [hcurrent]; exact List.mem_cons_self ..)
      obtain ⟨s', hround⟩ := lexRound_expected hc s rest
      -- a round takes something, so less is left
      obtain ⟨w, hw, hne, -⟩ := (lexRound_eq_done hround).piece hcurrent
      have hpos := List.length_pos_iff.mpr hne
      have hlen' := congrArg List.length hw
      rw [List.length_append] at hlen'
      obtain ⟨f, hf⟩ := ih s' (by omega) fun d hd => hall d (by
        rw [hw]
        exact List.mem_append_right w hd)
      refine ⟨f, ?_⟩
      rw [lexLoop_cons hcurrent, hround]
      exact hf

/-- Every character of a text that the loop ends on is expected. -/
theorem expected_of_lexLoop {n : Nat} {s f : Lexing} (h : lexLoop n s = .done f) :
    ∀ c ∈ s.current, expected c = true := by
  induction n generalizing s with
  | zero => cases h
  | succ n ih =>
    cases hcurrent : s.current with
    | nil => exact List.forall_mem_nil _
    | cons c rest =>
      rw [lexLoop_cons hcurrent, Fueled.bind_eq_done] at h
      obtain ⟨s', hround, hloop⟩ := h
      obtain ⟨w, hw, -, hexpected⟩ := (lexRound_eq_done hround).piece hcurrent
      rw [← hcurrent, hw]
      intro d hd
      rcases List.mem_append.mp hd with hd | hd
      · exact hexpected d hd
      · exact ih hloop d hd

/-- `lexer` returns exactly on the sources without an unexpected character. -/
theorem lexer_returns_iff (junk : Junk) (source : CString) :
    (∃ r, Yields (fun n => lexer n junk source) r) ↔
      ∀ c ∈ source.chars, expected c = true := by
  constructor
  · rintro ⟨r, n, hn⟩
    obtain ⟨f, hf, -⟩ := lexer_eq_done hn
    exact expected_of_lexLoop hf
  · intro hall
    obtain ⟨f, hf⟩ := lexLoop_expected _ (junk.start source) (Nat.le_refl _) hall
    refine ⟨f.finish, source.strlen + 1, ?_⟩
    show lexLoop (source.strlen + 1) (junk.start source) >>= (fun s => .done s.finish) = _
    rw [show lexLoop (source.strlen + 1) (junk.start source) = .done f from hf,
      Fueled.done_bind]

end Bytecode

end SystemsProjects

import Mathlib.Algebra.GroupWithZero.Nat
import Mathlib.Data.List.TakeWhile
import SystemsProjects.Lib.Fuel
import SystemsProjects.Lib.Scratch
import SystemsProjects.Bytecode.Ast

/-!
# The lexer (`compiler.c`)

`lexer`, over the text that is left of the source, with its locals: the two scratch
buffers `wordBuilder` and `numBuilder`, the array `tokens`, and `tokenToSend`, the one
struct that every token is built in and copied from.

None of the locals is initialised; `Junk` is what they hold. Each array keeps a record of
the indices it was written at (`Scratch`). The ends of the arrays are not enforced: a
store past an end goes through, changes no other array, and stays in the record. The
counters are `Nat`: an `int` holds them for every source shorter than 2 GiB.

Characters are those of the C locale: the classes of `ctype.h` hold ASCII characters only.

The order of the tests is that of the source: white space, letters, digits, the `switch`, and
last the message about an unexpected character, after which the program exits. `sendType` keeps
the other fields of the struct as the token before has left them, as the assignment to
`tokenToSend.type` does.
-/

namespace SystemsProjects

namespace Bytecode

/-! ## Strings and character classes -/

/-- `'\0'` -/
def nul : Char := Char.ofNat 0

/-- A NUL-terminated string: the characters in front of the NUL. -/
structure CString where
  chars : List Char
  noNul : nul ∉ chars
  deriving DecidableEq

/-- `strlen` -/
def CString.strlen (s : CString) : Nat := s.chars.length

/-- `isalpha`, in the C locale. -/
def isalpha (c : Char) : Bool := c.isAlpha

/-- `isdigit` -/
def isdigit (c : Char) : Bool := c.isDigit

/-- `isalnum` -/
def isalnum (c : Char) : Bool := isalpha c || isdigit c

/-- Space, `\t`, `\n`, `\v`, `\f` and `\r`. -/
def isspace (c : Char) : Bool := c = ' ' || (9 ≤ c.toNat && c.toNat ≤ 13)

/-- The string at the start of a `char` array. -/
def cstring (cells : List Char) : List Char := cells.takeWhile (· != nul)

/-- `atoi`, for a string that begins with a digit: `(int) strtol(s, NULL, 10)`, which stops
at the first character that is no digit and at `LONG_MAX`. The standard leaves open what
happens above `INT_MAX`. -/
def atoi (cells : List Char) : CInt :=
  BitVec.ofNat 32 (min (Nat.ofDigitChars 10 ((cstring cells).takeWhile isdigit) 0) (2 ^ 63 - 1))

/-- `strcpy(dst, src)` -/
def strcpy (dst : Scratch Char) (src : List Char) : Scratch Char :=
  (dst.rewind.pushAll (cstring src)).put nul

/-! ## Tokens in memory -/

/-- `TokenType`. -/
inductive TokenType where
  | tokNum | tokIdent | tokPlus | tokMinus
  | tokStar | tokSlash | tokEq | tokEqeq | tokGt | tokLt
  | tokPrint | tokWhile | tokIf | tokLbrace | tokRbrace
  | tokLparen | tokRparen | tokEof
  deriving DecidableEq, Repr

/-- The struct `Token` with all of its fields; `name` is the content of the `char[32]`. -/
structure RawToken where
  type : TokenType
  value : CInt
  name : List Char
  deriving DecidableEq

/-- The string in a `char[32]`, when it ends inside it. -/
def Name.ofCells? (cells : List Char) : Option Name :=
  if h : (cstring cells).length < 32 then
    some ⟨cstring cells, h, fun hmem => by simpa [nul] using List.mem_takeWhile_imp hmem⟩
  else
    none

/-- The token a struct stands for: its type, with the field that is meaningful for it. -/
def RawToken.token? (t : RawToken) : Option Token :=
  match t.type with
  | .tokNum => some (.tokNum t.value)
  | .tokIdent => (Name.ofCells? t.name).map .tokIdent
  | .tokPlus => some .tokPlus
  | .tokMinus => some .tokMinus
  | .tokStar => some .tokStar
  | .tokSlash => some .tokSlash
  | .tokEq => some .tokEq
  | .tokEqeq => some .tokEqeq
  | .tokGt => some .tokGt
  | .tokLt => some .tokLt
  | .tokPrint => some .tokPrint
  | .tokWhile => some .tokWhile
  | .tokIf => some .tokIf
  | .tokLbrace => some .tokLbrace
  | .tokRbrace => some .tokRbrace
  | .tokLparen => some .tokLparen
  | .tokRparen => some .tokRparen
  | .tokEof => some .tokEof

/-! ## The locals -/

/-- What the uninitialised locals and the block from `malloc` hold. -/
structure Junk where
  wordBuilder : List Char
  numBuilder : List Char
  tokens : List RawToken
  tokenToSend : RawToken

/-- The locals of `lexer`; `current` is the text it points to. -/
structure Lexing where
  current : List Char
  wordBuilder : Scratch Char
  numBuilder : Scratch Char
  tokens : Scratch RawToken
  tokenToSend : RawToken
  /-- the indices at which `tokenToSend.name` was written -/
  nameWritten : List Nat := []

/-- The locals when the loop is entered. -/
def Junk.start (junk : Junk) (source : CString) : Lexing where
  current := source.chars
  wordBuilder := { cells := junk.wordBuilder }
  numBuilder := { cells := junk.numBuilder }
  tokens := { cells := junk.tokens }
  tokenToSend := junk.tokenToSend

/-- The only way `lexer` does not return: `fprintf(stderr, message); exit(1)`. -/
inductive LexerStop where
  | exit (message : String)
  deriving DecidableEq

namespace Lexing

variable (s : Lexing)

/-- `tokens[tokenPointer] = tokenToSend; tokenPointer++` after `tokenToSend` became `t`. -/
def send (t : RawToken) : Lexing :=
  { s with tokenToSend := t, tokens := s.tokens.push t }

/-- A token whose struct is given a new `type` only: the other fields are those of the
token before. -/
def sendType (type : TokenType) : Lexing := s.send { s.tokenToSend with type := type }

/-- The token for a word that is no keyword: `strcpy(tokenToSend.name, wordBuilder)`. -/
def sendIdent : Lexing :=
  let name := strcpy ⟨s.tokenToSend.name, 0, s.nameWritten⟩ s.wordBuilder.cells
  { s with nameWritten := name.written }.send
    { s.tokenToSend with type := .tokIdent, name := name.cells }

/-- The token for the word in `wordBuilder`. -/
def sendWord : Lexing :=
  let word := cstring s.wordBuilder.cells
  if word = ['p', 'r', 'i', 'n', 't'] then
    s.sendType .tokPrint
  else if word = ['w', 'h', 'i', 'l', 'e'] then
    s.sendType .tokWhile
  else if word = ['i', 'f'] then
    s.sendType .tokIf
  else
    s.sendIdent

/-- The round at a letter. -/
def word (c : Char) (rest : List Char) : Lexing :=
  let (wordBuilder, rest) := Scratch.fill isalnum (s.wordBuilder.push c) rest
  let s := { s with wordBuilder := wordBuilder.put nul, current := rest }.sendWord
  { s with wordBuilder := s.wordBuilder.rewind }

/-- The round at a digit. -/
def number : Lexing :=
  let (numBuilder, rest) := Scratch.fill isdigit s.numBuilder s.current
  let numBuilder := (numBuilder.put nul).rewind
  { s with numBuilder := numBuilder, current := rest }.send
    { s.tokenToSend with type := .tokNum, value := atoi numBuilder.cells }

end Lexing

/-- The cases of the `switch` that look at one character only. -/
def singleType : Char → Option TokenType
  | '+' => some .tokPlus
  | '-' => some .tokMinus
  | '*' => some .tokStar
  | '/' => some .tokSlash
  | '>' => some .tokGt
  | '<' => some .tokLt
  | '(' => some .tokLparen
  | ')' => some .tokRparen
  | '\x7b' => some .tokLbrace
  | '\x7d' => some .tokRbrace
  | _ => none

/-- The `switch` on `*current`, and the `current++` behind it. -/
def Lexing.switch (s : Lexing) (c : Char) (rest : List Char) : Fueled LexerStop Lexing :=
  if c = '=' then
    if rest.head? = some '=' then
      .done { s.sendType .tokEqeq with current := rest.tail }
    else
      .done { s.sendType .tokEq with current := rest }
  else
    match singleType c with
    | some type => .done { s.sendType type with current := rest }
    | none => .stop (.exit ("unexpected character: '" ++ c.toString ++ "'\n"))

/-- One round of the loop, at the text `c :: rest`. -/
def lexRound (s : Lexing) (c : Char) (rest : List Char) : Fueled LexerStop Lexing :=
  if isalpha c then
    .done (s.word c rest)
  else if isdigit c then
    .done s.number
  else if isspace c then
    .done { s with current := rest }
  else
    s.switch c rest

/-- `while(*current != '\0')`, with `n` rounds to spend. -/
def lexLoop : Nat → Lexing → Fueled LexerStop Lexing
  | 0, _ => .out
  | n + 1, s =>
    match s.current with
    | [] => .done s
    | c :: rest => lexRound s c rest >>= lexLoop n

/-- What `lexer` leaves behind: the array, `*token_count`, and the records of all writes. -/
structure LexerResult where
  tokens : List RawToken
  tokenCount : Nat
  tokensWritten : List Nat
  wordWritten : List Nat
  numWritten : List Nat
  nameWritten : List Nat

/-- `tokens[tokenPointer].type = TOK_EOF; *token_count = tokenPointer; return tokens` -/
def Lexing.finish (s : Lexing) : LexerResult :=
  let last := (s.tokens.cells[s.tokens.pointer]?).getD s.tokenToSend
  let tokens := s.tokens.put { last with type := .tokEof }
  { tokens := tokens.cells
    tokenCount := s.tokens.pointer
    tokensWritten := tokens.written
    wordWritten := s.wordBuilder.written
    numWritten := s.numBuilder.written
    nameWritten := s.nameWritten }

/-- `lexer`, with `n` rounds to spend. -/
def lexer (n : Nat) (junk : Junk) (source : CString) : Fueled LexerStop LexerResult :=
  lexLoop n (junk.start source) >>= fun s => .done s.finish

end Bytecode

end SystemsProjects

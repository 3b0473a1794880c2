import Resumable.Token.Basic
import Resumable.Text.Blank

/-!
# From text to tokens

A source is a list of characters; a cursor is a place in it together with what follows.

* blanks and comments stand between tokens; a block comment ends at the first `*/`;
* operators take the longest spelling that fits;
* an integer may hold `_` between its digits and end with one `L` or `l`, which is no part of its
  spelling; letters right after it make it invalid, and are read with it;
* a text ends on its line; an escape that is not known is reported at the escaped character, all
  else at the start of the token;
* after an error the cursor stands behind what was read up to it, so a caller may go on.
-/

namespace Resumable

/-! ## Errors -/

/-- Why no token can be read. -/
inductive LexCause where
  /-- no token starts with this character -/
  | unexpectedCharacter (c : Char)
  /-- the line or the source ends inside a text -/
  | unterminatedString
  /-- digits that are too large or run into letters -/
  | invalidNumber (spelling : String)
  /-- a backslash before this character -/
  | invalidEscape (c : Char)
  /-- the source ends inside a block comment -/
  | unterminatedComment
  deriving DecidableEq

/-- An error of reading tokens. -/
structure LexError where
  /-- why no token can be read -/
  cause : LexCause
  /-- the place that is reported -/
  location : Location
  deriving DecidableEq

/-- What is wrong, without the place. -/
def LexCause.text : LexCause → String
  | .unexpectedCharacter c => s!"unexpected character '{c}'"
  | .unterminatedString => "unterminated string literal"
  | .invalidNumber v => s!"invalid number '{v}'"
  | .invalidEscape c => s!"invalid escape sequence '\\{c}'"
  | .unterminatedComment => "unterminated block comment"

/-- The message of an error: its place and what is wrong there. -/
def LexError.message (e : LexError) : String := s!"{e.location.text}: {e.cause.text}"

/-! ## Cursors -/

/-- Line, column and offset of a character. -/
structure Position where
  line : Nat
  column : Nat
  offset : Nat
  deriving DecidableEq, Inhabited

namespace Position

/-- The place of the first character. -/
def start : Position := ⟨1, 1, 0⟩

/-- The place after a character. -/
def after (p : Position) (c : Char) : Position :=
  if c = '\n' then ⟨p.line + 1, 1, p.offset + 1⟩ else ⟨p.line, p.column + 1, p.offset + 1⟩

/-- The place after some characters. -/
def afterAll (p : Position) (cs : List Char) : Position := cs.foldl after p

/-- The place in a named source. -/
def within (p : Position) (file : String) : Location := ⟨file, p.line, p.column, p.offset⟩

end Position

/-- A place in a source and the characters from there on. -/
structure Cursor where
  /-- the place -/
  position : Position
  /-- what has not been read -/
  rest : List Char
  deriving Inhabited

namespace Cursor

/-- The start of a source. -/
def ofString (source : String) : Cursor := ⟨.start, source.toList⟩

/-- The cursor after the next `n` characters. -/
def advance (c : Cursor) (n : Nat) : Cursor :=
  ⟨c.position.afterAll (c.rest.take n), c.rest.drop n⟩

/-- The cursor after all blanks that come next. -/
def skipBlanks (c : Cursor) : Cursor :=
  ⟨c.position.afterAll (c.rest.takeWhile Text.isBlank), c.rest.dropWhile Text.isBlank⟩

end Cursor

/-! ## Characters -/

/-- Whether a word may start with the character. -/
def isWordStart (c : Char) : Bool := c.isAlpha || c == '_' || c == '$'

/-- Whether a word may go on with the character. -/
def isWordChar (c : Char) : Bool := c.isAlphanum || c == '_' || c == '$'

/-- Whether the character may stand between the first and the last digit of an integer. -/
def isNumberChar (c : Char) : Bool := c.isDigit || c == '_'

/-- The character that an escape in a text stands for. -/
def unescape? : Char → Option Char
  | 'n' => some '\n'
  | 't' => some '\t'
  | 'r' => some '\r'
  | '\\' => some '\\'
  | '"' => some '"'
  | '\'' => some '\''
  | '0' => some '\x00'
  | _ => none

/-- The kind of a word. -/
def wordKind (word : String) : TokenKind :=
  if word = "true" then .bool true
  else if word = "false" then .bool false
  else if word = "null" then .null
  else
    match Keyword.ofSpelling? word with
    | some k => .keyword k
    | none => .identifier word

/-- The token that two characters form. -/
def pairKind? : Char → Char → Option TokenKind
  | '+', '+' => some .plusPlus
  | '+', '=' => some .plusEqual
  | '-', '-' => some .minusMinus
  | '-', '=' => some .minusEqual
  | '*', '=' => some .starEqual
  | '%', '=' => some .percentEqual
  | '/', '=' => some .slashEqual
  | '=', '=' => some .equalEqual
  | '!', '=' => some .bangEqual
  | '<', '=' => some .lessEqual
  | '>', '=' => some .greaterEqual
  | '|', '|' => some .pipePipe
  | '&', '&' => some .ampAmp
  | _, _ => none

/-- The token that one character forms. -/
def singleKind? : Char → Option TokenKind
  | '(' => some .leftParen
  | ')' => some .rightParen
  | '\x7b' => some .leftBrace
  | '\x7d' => some .rightBrace
  | ';' => some .semicolon
  | ':' => some .colon
  | ',' => some .comma
  | '.' => some .dot
  | '+' => some .plus
  | '-' => some .minus
  | '*' => some .star
  | '%' => some .percent
  | '/' => some .slash
  | '=' => some .equal
  | '!' => some .bang
  | '<' => some .less
  | '>' => some .greater
  | '|' => some .pipe
  | _ => none

/-! ## Pieces

What starts at a character that is not blank. All counts are of the characters behind that first
one, so that a token or comment always takes at least one character. -/

/-- What starts at a character, in terms of the characters that follow it. -/
inductive Piece where
  /-- a token: how many following characters its spelling and the token itself take -/
  | token (kind : TokenKind) (spelled taken : Nat)
  /-- a comment and how many following characters it takes -/
  | comment (taken : Nat)
  /-- no token; `read` counts the first character too -/
  | error (cause : LexCause) (read : Nat)
  deriving DecidableEq

/-- How a text ends, read from behind its opening quote. -/
inductive TextEnd where
  /-- its value, and the number of characters with the closing quote -/
  | closed (value : List Char) (taken : Nat)
  /-- no closing quote, and the number of characters up to the line's end -/
  | unterminated (read : Nat)
  /-- an unknown escape, and the number of characters up to the escaped one -/
  | badEscape (c : Char) (read : Nat)
  deriving DecidableEq

namespace TextEnd

/-- The end of a text that has one more character of value `c`, written with `n` characters. -/
def push (c : Char) (n : Nat) : TextEnd → TextEnd
  | .closed value taken => .closed (c :: value) (taken + n)
  | .unterminated read => .unterminated (read + n)
  | .badEscape b read => .badEscape b (read + n)

end TextEnd

/-- Reads a text from behind its opening quote. -/
def textEnd : List Char → TextEnd
  | [] => .unterminated 0
  | '"' :: _ => .closed [] 1
  | '\\' :: [] => .unterminated 1
  | '\\' :: c :: r =>
    match unescape? c with
    | some x => (textEnd r).push x 2
    | none => .badEscape c 1
  | c :: r => if c = '\n' ∨ c = '\r' then .unterminated 0 else (textEnd r).push c 1

/-- The number of characters up to and with the next `*/`, if there is one. -/
def commentEnd? : List Char → Option Nat
  | '*' :: '/' :: _ => some 2
  | _ :: r => (commentEnd? r).map (· + 1)
  | [] => none

/-- The number of characters up to and with the next line end, or all of them. -/
def lineEnd : List Char → Nat
  | [] => 0
  | c :: r => if c = '\n' then 1 else lineEnd r + 1

/-- The integer that starts with the digit `c`. -/
def numberPiece (c : Char) (r : List Char) : Piece :=
  let body := r.takeWhile isNumberChar
  let r := r.dropWhile isNumberChar
  let suffix := if r.head? = some 'L' ∨ r.head? = some 'l' then 1 else 0
  let r := r.drop suffix
  if r.head?.any Char.isAlpha then
    let letters := r.takeWhile Char.isAlphanum
    .error (.invalidNumber (String.ofList (c :: body ++ letters)))
      (1 + body.length + suffix + letters.length)
  else
    let value := Text.digitsValue ((c :: body).filter Char.isDigit)
    if value < Text.int64Bound then
      .token (.integer (Int64.ofNat value)) body.length (body.length + suffix)
    else .error (.invalidNumber (String.ofList (c :: body))) (1 + body.length + suffix)

/-- The text that starts with a quote. -/
def textPiece (r : List Char) : Piece :=
  match textEnd r with
  | .closed value taken => .token (.string (String.ofList value)) taken taken
  | .unterminated read => .error .unterminatedString (1 + read)
  | .badEscape c read => .error (.invalidEscape c) (1 + read)

/-- The operator, bracket or mark that starts with `c`. -/
def markPiece (c : Char) (r : List Char) : Piece :=
  match r.head?.bind (pairKind? c) with
  | some kind => .token kind 1 1
  | none =>
    match singleKind? c with
    | some kind => .token kind 0 0
    | none => .error (.unexpectedCharacter c) (if c = '&' then 1 else 0)

/-- What starts with the character `c`, which is no blank. -/
def piece (c : Char) (r : List Char) : Piece :=
  if isWordStart c then
    let word := r.takeWhile isWordChar
    .token (wordKind (String.ofList (c :: word))) word.length word.length
  else if c.isDigit then numberPiece c r
  else if c = '"' then textPiece r
  else if c = '/' ∧ r.head? = some '/' then .comment (1 + lineEnd (r.drop 1))
  else if c = '/' ∧ r.head? = some '*' then
    match commentEnd? (r.drop 1) with
    | some n => .comment (1 + n)
    | none => .error .unterminatedComment (1 + r.length)
  else markPiece c r

/-! ## Tokens -/

/-- The place at which an error is reported whose token starts at `first` and up to which `read`
has been read. -/
def LexCause.place (cause : LexCause) (first read : Cursor) : Position :=
  match cause with
  | .invalidEscape _ => read.position
  | _ => first.position

theorem Cursor.length_skipBlanks_le (c : Cursor) : c.skipBlanks.rest.length ≤ c.rest.length :=
  List.Sublist.length_le (List.dropWhile_sublist _)

theorem Cursor.length_advance (c : Cursor) (n : Nat) :
    (c.advance n).rest.length = c.rest.length - n := by
  simp [Cursor.advance]

/-- The next token of the source `file`, or why there is none, and where reading stopped. -/
def Cursor.next (file : String) (c : Cursor) : Except LexError Token × Cursor :=
  match _h : c.skipBlanks.rest with
  | [] => (.ok ⟨.eof, c.skipBlanks.position.within file, ""⟩, c.skipBlanks)
  | x :: r =>
    match piece x r with
    | .comment taken => Cursor.next file (c.skipBlanks.advance (taken + 1))
    | .token kind spelled taken =>
      (.ok ⟨kind, c.skipBlanks.position.within file, String.ofList (x :: r.take spelled)⟩,
        c.skipBlanks.advance (taken + 1))
    | .error cause read =>
      let stop := c.skipBlanks.advance read
      (.error ⟨cause, (cause.place c.skipBlanks stop).within file⟩, stop)
termination_by c.rest.length
decreasing_by
  have h₁ := c.length_skipBlanks_le
  have h₂ := congrArg List.length _h
  simp only [Cursor.length_advance, List.length_cons] at h₂ ⊢
  omega

/-- A token other than the end takes at least one character. -/
theorem Cursor.length_next_lt {file : String} {c c' : Cursor} {t : Token}
    (h : c.next file = (.ok t, c')) (ht : t.isEof = false) : c'.rest.length < c.rest.length := by
  fun_induction Cursor.next file c with
  | case1 c hr =>
    cases h
    simp [Token.isEof] at ht
  | case2 c x r hr taken hp ih =>
    have h₁ := c.length_skipBlanks_le
    have h₂ := ih h
    rw [Cursor.length_advance] at h₂
    omega
  | case3 c x r hr kind spelled taken hp =>
    cases h
    have h₁ := c.length_skipBlanks_le
    have h₂ := congrArg List.length hr
    rw [Cursor.length_advance]
    simp only [List.length_cons] at h₂
    omega
  | case4 => cases h

/-- The tokens from a cursor on, the end of the source last; or the first error. -/
def Cursor.tokens (file : String) (c : Cursor) : Except LexError (List Token) :=
  match _h : c.next file with
  | (.error e, _) => .error e
  | (.ok t, c') =>
    if _ht : t.isEof = false then (Cursor.tokens file c').map (t :: ·)
    else .ok [t]
termination_by c.rest.length
decreasing_by exact Cursor.length_next_lt _h _ht

/-- The tokens of a source, the end of the source last; or the first error. -/
def tokenize (source : String) (file : String) : Except LexError (List Token) :=
  (Cursor.ofString source).tokens file

end Resumable

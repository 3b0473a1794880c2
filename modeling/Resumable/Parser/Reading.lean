import Resumable.Token.Lexer

/-!
# Reading from tokens

A reader is given the tokens ahead and answers with a `Reading`.

* success uses at least one token; failure gives none back; both facts are part of the answer, so
  that a grammar can be written as a recursion on the number of tokens ahead;
* a token that marks the end is never used: reading stops in front of it, wherever it stands;
* behind the last token stands the end of the input, `eof`, for as often as it is looked at.
-/

namespace Resumable

/-! ## Errors -/

/-- Why tokens form no tree. -/
inductive ParseCause where
  /-- something else was expected in place of this token; none at the end of the input -/
  | unexpected (expected : String) (found : Option String)
  /-- the left side of an assignment is no variable -/
  | invalidTarget
  /-- a switch has two defaults -/
  | duplicateDefault
  /-- a resource of that name has no first value -/
  | uninitializedResource (name : String)
  /-- a try without resources, handlers and final code -/
  | bareTry
  deriving DecidableEq

/-- An error of reading a tree. -/
structure ParseError where
  /-- why the tokens form no tree -/
  cause : ParseCause
  /-- the place that is reported -/
  location : Location
  deriving DecidableEq

/-- What is wrong, without the place. -/
def ParseCause.text : ParseCause → String
  | .unexpected expected (some lexeme) => s!"{expected}, found '{lexeme}'"
  | .unexpected expected none => s!"{expected}, found end of input"
  | .invalidTarget => "invalid assignment target"
  | .duplicateDefault => "duplicate default label"
  | .uninitializedResource name => s!"resource `{name}` must be initialized"
  | .bareTry => "'try' without 'catch', 'finally' or resources"

/-- The message of an error: its place and what is wrong there. -/
def ParseError.message (e : ParseError) : String := s!"{e.location.text}: {e.cause.text}"

/-! ## Answers -/

/-- The answer of a reader that had `n` tokens ahead. -/
inductive Reading (α : Type) (n : Nat) where
  /-- what was read, and the tokens after it -/
  | ok (value : α) (rest : List Token) (lt : rest.length < n)
  /-- what is wrong, and the tokens at which reading stopped -/
  | error (e : ParseError) (rest : List Token) (le : rest.length ≤ n)

namespace Reading

variable {α β : Type} {n : Nat}

/-- The answer of a reader with the tokens `ts` ahead, seen from further back. -/
def up {ts : List Token} (x : Reading α ts.length) (h : ts.length < n) : Reading α n :=
  match x with
  | .ok a r lt => .ok a r (Nat.lt_trans lt h)
  | .error e r le => .error e r (Nat.le_trans le (Nat.le_of_lt h))

/-- Fails at tokens further on. -/
def stop (e : ParseError) (r : List Token) (lt : r.length < n) : Reading α n :=
  .error e r (Nat.le_of_lt lt)

/-- Goes on with what was read and the tokens after it. -/
def andThen (x : Reading α n) (f : α → (r : List Token) → r.length < n → Reading β n) :
    Reading β n :=
  match x with
  | .ok a r lt => f a r lt
  | .error e r le => .error e r le

/-- Changes what was read. -/
def map (f : α → β) (x : Reading α n) : Reading β n :=
  x.andThen fun a r lt => .ok (f a) r lt

/-- The tokens after the reading, or those at which it stopped. -/
def rest : Reading α n → List Token
  | .ok _ r _ => r
  | .error _ r _ => r

/-- What was read, or what is wrong. -/
def result : Reading α n → Except ParseError α
  | .ok a _ _ => .ok a
  | .error e _ _ => .error e

end Reading

/-! ## Single tokens -/

/-- What stands behind a token is shorter. -/
theorem length_lt_cons (t : Token) (r : List Token) : r.length < (t :: r).length :=
  Nat.lt_succ_self r.length

/-- What stands behind a token stays below every bound of the whole. -/
theorem length_lt_of_cons_lt {t : Token} {r : List Token} {n : Nat} (lt : (t :: r).length < n) :
    r.length < n :=
  Nat.lt_of_succ_lt lt

/-- The token that a reader stands at. -/
def currentToken (eof : Token) (ts : List Token) : Token := ts.headD eof

/-- The kind of the token that a reader stands at. -/
def currentKind (ts : List Token) : TokenKind :=
  match ts with
  | t :: _ => t.kind
  | [] => .eof

/-- The error at the token that a reader stands at, in place of which `expected` says what
belongs there. -/
def unexpectedAt (eof : Token) (expected : String) (ts : List Token) : ParseError :=
  let t := currentToken eof ts
  ⟨.unexpected expected (if t.isEof then none else some t.lexeme), t.location⟩

/-- Fails at the current token. -/
def failAt {α : Type} (eof : Token) (expected : String) (ts : List Token) : Reading α ts.length :=
  .error (unexpectedAt eof expected ts) ts (Nat.le_refl _)

/-- The next token, which has to be of the given kind. -/
def expect (eof : Token) (kind : TokenKind) (expected : String) (ts : List Token) :
    Reading Unit ts.length :=
  match ts with
  | t :: r =>
    if t.kind = kind then .ok () r (length_lt_cons t r) else failAt eof expected (t :: r)
  | [] => failAt eof expected []

/-- The next token, which has to be an identifier. -/
def expectName (eof : Token) (expected : String) (ts : List Token) : Reading String ts.length :=
  match ts with
  | t :: r =>
    match t.kind with
    | .identifier name => .ok name r (length_lt_cons t r)
    | _ => failAt eof expected (t :: r)
  | [] => failAt eof expected []

/-- The tokens behind the next one if that is of the given kind. -/
def skip? {n : Nat} (kind : TokenKind) (ts : List Token) (lt : ts.length < n) :
    Option { r : List Token // r.length < ts.length ∧ r.length < n } :=
  match ts with
  | t :: r =>
    if t.kind = kind then some ⟨r, length_lt_cons t r, length_lt_of_cons_lt lt⟩ else none
  | [] => none

end Resumable

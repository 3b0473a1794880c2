import Resumable.Location

/-!
# Tokens

* punctuation, operators and literals each have a kind of their own; words are keywords, one of
  the three literal words, or identifiers;
* a token carries its spelling in the source and the place where it starts.
-/

namespace Resumable

/-- The reserved words of statements. -/
inductive Keyword where
  | if_
  | else_
  | while_
  | do_
  | for_
  | switch
  | case
  | default
  | try_
  | catch_
  | finally_
  | synchronized
  | return_
  | break_
  | continue_
  | throw
  deriving DecidableEq, Inhabited

namespace Keyword

/-- All keywords. -/
def all : List Keyword :=
  [if_, else_, while_, do_, for_, switch, case, default, try_, catch_, finally_, synchronized,
    return_, break_, continue_, throw]

/-- How a keyword is written in a source. -/
def spelling : Keyword → String
  | if_ => "if"
  | else_ => "else"
  | while_ => "while"
  | do_ => "do"
  | for_ => "for"
  | switch => "switch"
  | case => "case"
  | default => "default"
  | try_ => "try"
  | catch_ => "catch"
  | finally_ => "finally"
  | synchronized => "synchronized"
  | return_ => "return"
  | break_ => "break"
  | continue_ => "continue"
  | throw => "throw"

/-- The keyword of that spelling. -/
def ofSpelling? (word : String) : Option Keyword :=
  all.find? fun k => k.spelling == word

end Keyword

/-- What a token is. -/
inductive TokenKind where
  /-- `(` -/
  | leftParen
  /-- `)` -/
  | rightParen
  /-- opening brace -/
  | leftBrace
  /-- closing brace -/
  | rightBrace
  /-- `;` -/
  | semicolon
  /-- `:` -/
  | colon
  /-- `,` -/
  | comma
  /-- `.` -/
  | dot
  /-- `|` -/
  | pipe
  /-- `+` -/
  | plus
  /-- `-` -/
  | minus
  /-- `*` -/
  | star
  /-- `/` -/
  | slash
  /-- `%` -/
  | percent
  /-- `++` -/
  | plusPlus
  /-- `--` -/
  | minusMinus
  /-- `==` -/
  | equalEqual
  /-- `!=` -/
  | bangEqual
  /-- `<` -/
  | less
  /-- `<=` -/
  | lessEqual
  /-- `>` -/
  | greater
  /-- `>=` -/
  | greaterEqual
  /-- `&&` -/
  | ampAmp
  /-- `||` -/
  | pipePipe
  /-- `!` -/
  | bang
  /-- `=` -/
  | equal
  /-- `+=` -/
  | plusEqual
  /-- `-=` -/
  | minusEqual
  /-- `*=` -/
  | starEqual
  /-- `/=` -/
  | slashEqual
  /-- `%=` -/
  | percentEqual
  /-- an integer -/
  | integer (value : Int64)
  /-- a text, without quotes and escapes -/
  | string (value : String)
  /-- `true` or `false` -/
  | bool (value : Bool)
  /-- `null` -/
  | null
  /-- any other word -/
  | identifier (name : String)
  /-- a reserved word -/
  | keyword (k : Keyword)
  /-- the end of the source -/
  | eof
  deriving DecidableEq, Inhabited

/-- A token of a source. -/
structure Token where
  /-- what it is -/
  kind : TokenKind
  /-- where it starts -/
  location : Location
  /-- how it is written; an integer without its mark of length -/
  lexeme : String
  deriving DecidableEq, Inhabited

/-- Whether the token is the end of the source. -/
def Token.isEof (t : Token) : Bool := t.kind == .eof

end Resumable

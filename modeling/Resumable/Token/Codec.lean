import Resumable.Token.Basic
import Resumable.Tree.Codec

/-!
# Tokens in JSON

The exchange form of tokens: a kind without content is its bare name, and a token is a record of
kind, place and spelling.
-/

namespace Resumable

open Json (Decoder slots)

namespace Keyword

/-- The name of a keyword in the exchange form. -/
def tag : Keyword → String
  | if_ => "If"
  | else_ => "Else"
  | while_ => "While"
  | do_ => "Do"
  | for_ => "For"
  | switch => "Switch"
  | case => "Case"
  | default => "Default"
  | try_ => "Try"
  | catch_ => "Catch"
  | finally_ => "Finally"
  | synchronized => "Synchronized"
  | return_ => "Return"
  | break_ => "Break"
  | continue_ => "Continue"
  | throw => "Throw"

/-- The keyword of that name. -/
def ofTag? (name : String) : Option Keyword := all.find? fun k => k.tag == name

end Keyword

namespace TokenKind

/-- The kinds without content. -/
def bare : List TokenKind :=
  [leftParen, rightParen, leftBrace, rightBrace, semicolon, colon, comma, dot, pipe, plus, minus,
    star, slash, percent, plusPlus, minusMinus, equalEqual, bangEqual, less, lessEqual, greater,
    greaterEqual, ampAmp, pipePipe, bang, equal, plusEqual, minusEqual, starEqual, slashEqual,
    percentEqual, null, eof]

/-- The name of a kind in the exchange form. -/
def tag : TokenKind → String
  | leftParen => "LeftParen"
  | rightParen => "RightParen"
  | leftBrace => "LeftBrace"
  | rightBrace => "RightBrace"
  | semicolon => "Semicolon"
  | colon => "Colon"
  | comma => "Comma"
  | dot => "Dot"
  | pipe => "Pipe"
  | plus => "Plus"
  | minus => "Minus"
  | star => "Star"
  | slash => "Slash"
  | percent => "Percent"
  | plusPlus => "PlusPlus"
  | minusMinus => "MinusMinus"
  | equalEqual => "EqualEqual"
  | bangEqual => "BangEqual"
  | less => "Less"
  | lessEqual => "LessEqual"
  | greater => "Greater"
  | greaterEqual => "GreaterEqual"
  | ampAmp => "AmpAmp"
  | pipePipe => "PipePipe"
  | bang => "Bang"
  | equal => "Equal"
  | plusEqual => "PlusEqual"
  | minusEqual => "MinusEqual"
  | starEqual => "StarEqual"
  | slashEqual => "SlashEqual"
  | percentEqual => "PercentEqual"
  | integer _ => "IntegerLiteral"
  | string _ => "StringLiteral"
  | bool _ => "BoolLiteral"
  | null => "NullLiteral"
  | identifier _ => "Identifier"
  | keyword _ => "Keyword"
  | eof => "Eof"

/-- The kind as a variant. -/
def toJson (k : TokenKind) : Json :=
  match k with
  | integer v => .obj [(k.tag, .int v.toInt)]
  | string s => .obj [(k.tag, .str s)]
  | bool b => .obj [(k.tag, .bool b)]
  | identifier name => .obj [(k.tag, .str name)]
  | keyword w => .obj [(k.tag, .str w.tag)]
  | _ => .str k.tag

/-- The kind without content of that name. -/
def ofTag? (name : String) : Option TokenKind := bare.find? fun k => k.tag == name

/-- Reads a kind from a variant. -/
def ofJson? (levels : Nat) (j : Json) : Option TokenKind :=
  match levels, j with
  | levels + 1, .obj [(tag, j')] =>
    match tag with
    | "IntegerLiteral" => (Json.int64? j').map integer
    | "StringLiteral" => (Json.text? j').map string
    | "BoolLiteral" => (Json.bool? j').map bool
    | "Identifier" => (Json.text? j').map identifier
    | "Keyword" => (ofName? Keyword.ofTag? levels j').map keyword
    | _ => ofName? ofTag? (levels + 1) j
  | levels, j => ofName? ofTag? levels j

end TokenKind

namespace Token

/-- The token as a record. -/
def toJson (t : Token) : Json :=
  .obj [("token_type", t.kind.toJson), ("location", t.location.toJson), ("lexeme", .str t.lexeme)]

/-- Reads a token from a record. -/
def ofJson? : Decoder Token
  | levels + 1, j => do
    let [kind, loc, lexeme] ← slots ["token_type", "location", "lexeme"] j | none
    return ⟨← kind.required (TokenKind.ofJson? levels), ← loc.required (Location.ofJson? levels),
      ← lexeme.required Json.text?⟩
  | 0, _ => none

end Token

end Resumable

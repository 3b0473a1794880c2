/-!
# JSON values

The tree form in which programs and lowered generators are exchanged.

* a number without fraction and exponent is an integer; any other number keeps its spelling,
  and so does `-0`, because no field of the exchanged trees accepts one;
* an object keeps its members in written order, repetitions included, so that a reader can
  refuse a field that is given twice;
* an escape may name half of a surrogate pair. Without its other half that is no character: a text
  with one, or an object with one in a name, has its place in a document but no content;
* `compact` writes no blanks, `pretty` one member or item a line with two blanks for each level.
-/

namespace Resumable

/-- A JSON value. -/
inductive Json where
  /-- the value `null` -/
  | null
  /-- a truth value -/
  | bool (b : Bool)
  /-- a number without fraction or exponent, other than `-0` -/
  | int (n : Int)
  /-- any other number, as spelled -/
  | real (spelling : String)
  /-- a text -/
  | str (s : String)
  /-- a text, or an object with a name, that holds half of a surrogate pair -/
  | unpaired
  /-- a list of values -/
  | arr (items : List Json)
  /-- members in written order -/
  | obj (members : List (String × Json))
  deriving Inhabited

namespace Json

/-! ## Nesting -/

mutual

/-- How many lists and objects are open at the deepest place. -/
def depth : Json → Nat
  | .arr items => depthItems items + 1
  | .obj members => depthMembers members + 1
  | _ => 0

/-- The greatest depth among items. -/
def depthItems : List Json → Nat
  | [] => 0
  | j :: js => max (depth j) (depthItems js)

/-- The greatest depth among the values of members. -/
def depthMembers : List (String × Json) → Nat
  | [] => 0
  | (_, j) :: ms => max (depth j) (depthMembers ms)

end

/-! ## Writing -/

/-- The spelling of one character inside a JSON text: quote, backslash and control characters are
escaped, all else stands for itself. -/
def escapeChar (c : Char) : String :=
  match c with
  | '"' => "\\\""
  | '\\' => "\\\\"
  | '\n' => "\\n"
  | '\r' => "\\r"
  | '\t' => "\\t"
  | '\x08' => "\\b"
  | '\x0c' => "\\f"
  | c =>
    if c.toNat < 0x20 then
      let digits := Nat.toDigits 16 c.toNat
      "\\u" ++ String.ofList (List.replicate (4 - digits.length) '0' ++ digits)
    else c.toString

/-- A text between quotes. -/
def quote (s : String) : String :=
  s.foldl (fun acc c => acc ++ escapeChar c) "\"" ++ "\""

/-- A text that holds half of a surrogate pair. -/
def unpairedText : String := "\"\\ud800\""

mutual

/-- The text of a value without blanks. -/
def compact : Json → String
  | .null => "null"
  | .bool true => "true"
  | .bool false => "false"
  | .int n => toString n
  | .real spelling => spelling
  | .str s => quote s
  | .unpaired => unpairedText
  | .arr items => "[" ++ compactItems items ++ "]"
  | .obj members => "\x7b" ++ compactMembers members ++ "\x7d"

/-- Items with commas between them. -/
def compactItems : List Json → String
  | [] => ""
  | [j] => compact j
  | j :: js => compact j ++ "," ++ compactItems js

/-- Members with commas between them. -/
def compactMembers : List (String × Json) → String
  | [] => ""
  | [(k, j)] => quote k ++ ":" ++ compact j
  | (k, j) :: ms => quote k ++ ":" ++ compact j ++ "," ++ compactMembers ms

end

/-- A new line that starts with two blanks for each open level. -/
def newline (level : Nat) : String :=
  "\n" ++ String.ofList (List.replicate (2 * level) ' ')

mutual

/-- The indented text of a value that stands inside `level` open levels. -/
def prettyAt (level : Nat) : Json → String
  | .arr [] => "[]"
  | .arr items => "[" ++ prettyItems (level + 1) items ++ newline level ++ "]"
  | .obj [] => "\x7b\x7d"
  | .obj members => "\x7b" ++ prettyMembers (level + 1) members ++ newline level ++ "\x7d"
  | .null => "null"
  | .bool true => "true"
  | .bool false => "false"
  | .int n => toString n
  | .real spelling => spelling
  | .str s => quote s
  | .unpaired => unpairedText

/-- Items, each on a line of its own. -/
def prettyItems (level : Nat) : List Json → String
  | [] => ""
  | [j] => newline level ++ prettyAt level j
  | j :: js => newline level ++ prettyAt level j ++ "," ++ prettyItems level js

/-- Members, each on a line of its own. -/
def prettyMembers (level : Nat) : List (String × Json) → String
  | [] => ""
  | [(k, j)] => newline level ++ quote k ++ ": " ++ prettyAt level j
  | (k, j) :: ms =>
    newline level ++ quote k ++ ": " ++ prettyAt level j ++ "," ++ prettyMembers level ms

end

/-- The indented text of a value. -/
def pretty (j : Json) : String := prettyAt 0 j

/-! ## Looking up -/

/-- The value of the first member of that name; `null` where there is none. -/
def get (j : Json) (key : String) : Json :=
  match j with
  | .obj members => (members.lookup key).getD .null
  | _ => .null

/-- Whether the value is `null`. -/
def isNull : Json → Bool
  | .null => true
  | _ => false

end Json

end Resumable

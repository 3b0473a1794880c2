import Resumable.Text.Hidden

/-!
# Inspected texts

A text in quotes that shows every character.

* quotes, backslashes, line ends, tabs and the null character have short escapes;
* any other character that shows nothing of its own is written as its code.
-/

namespace Resumable

namespace Text

/-- A character as an inspected text shows it. -/
def inspectChar (c : Char) : String :=
  match c with
  | '\x00' => "\\0"
  | '\t' => "\\t"
  | '\r' => "\\r"
  | '\n' => "\\n"
  | '"' => "\\\""
  | '\\' => "\\\\"
  | c =>
    if isHidden c then "\\u\x7b" ++ String.ofList (Nat.toDigits 16 c.toNat) ++ "\x7d"
    else c.toString

/-- A text in quotes that shows every character. -/
def inspect (s : String) : String :=
  "\"" ++ String.join (s.toList.map inspectChar) ++ "\""

end Text

end Resumable

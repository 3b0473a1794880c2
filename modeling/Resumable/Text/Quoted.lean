/-!
# Quoted texts

A text as it is written between quotes in a source: quote, backslash, line feed, tab and carriage
return are escaped, and all other characters stand for themselves.
-/

namespace Resumable

namespace Text

/-- The spelling of a character between quotes. -/
def escape (c : Char) : List Char :=
  match c with
  | '"' => ['\\', '"']
  | '\\' => ['\\', '\\']
  | '\n' => ['\\', 'n']
  | '\t' => ['\\', 't']
  | '\r' => ['\\', 'r']
  | c => [c]

/-- A text between quotes. -/
def quoted (s : String) : String :=
  String.ofList ('"' :: s.toList.flatMap escape ++ ['"'])

end Text

end Resumable

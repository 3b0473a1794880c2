import Resumable.CommandLine.Perform

/-!
# The program

Runs the command line on real files and streams.
-/

namespace Resumable

namespace CommandLine

/-- Why a file cannot be accessed. -/
def AccessError.ofIO : IO.Error → AccessError
  | .noFileOrDirectory .. => ⟨"No such file or directory (os error 2)"⟩
  | .permissionDenied .. => ⟨"Permission denied (os error 13)"⟩
  | .inappropriateType .. => ⟨"Is a directory (os error 21)"⟩
  | e => ⟨toString e⟩

/-- An access to a file, with its failure as a result. -/
def accessing {α : Type} (x : IO α) : IO (Except AccessError α) := do
  try
    return .ok (← x)
  catch e =>
    return .error (.ofIO e)

/-- Real files and streams. -/
def terminal : Terminal IO where
  read path := accessing (IO.FS.readFile path)
  write path text := accessing (IO.FS.writeFile path text)
  out text := do
    let stdout ← IO.getStdout
    stdout.putStr text
    stdout.flush
  err text := IO.eprint text

end CommandLine

end Resumable

/-- Does what the command line asks for. -/
def main (words : List String) : IO UInt32 :=
  Resumable.CommandLine.execute Resumable.CommandLine.terminal words

import Resumable.Render.Lines

/-!
# Printed statements

* every body stands between braces, and a block as a body has no braces of its own;
* the declarations of a loop header are one declaration, so the type is printed once.
-/

namespace Resumable

/-- A declaration as it is printed. -/
def LocalDecl.printed (d : LocalDecl) : Printed :=
  match d.init with
  | some e => (d.type.text ++ " ") ++ d.name ++ " = " ++ e
  | none => (d.type.text ++ " ") ++ d.name

/-- A declaration as it is printed behind another one of its type. -/
def LocalDecl.furtherPrinted (d : LocalDecl) : Printed :=
  match d.init with
  | some e => d.name ++ " = " ++ e
  | none => d.name

namespace Stmt

/-- A statement at the start of a loop header as it is printed. -/
def startPrinted (first : Bool) : Stmt → Printed
  | declare d _ => if first then d.printed else d.furtherPrinted
  | expr e _ => e
  | _ => []

/-- The start of a loop header as it is printed. -/
def startsPrinted : List Stmt → Printed
  | [] => []
  | s :: ss => .joined ", " (startPrinted true s :: ss.map (startPrinted false))

/-- The labels of a case as they are printed. -/
def labelLines (labels : List Expr) (isDefault : Bool) : List Line :=
  labels.flatMap (fun e : Expr => line ("case " ++ e ++ ":")) ++
    (if isDefault then line "default:" else [])

/-- A jump with its label as it is printed. -/
def jumpLine (word : String) : Option String → List Line
  | some label => line (word ++ " " ++ label ++ ";")
  | none => line (word ++ ";")

/-- A printed statement as a body between braces: a block gives up its own braces. -/
def asBody : Stmt → List Line → List Line
  | block _ _, ls => (ls.drop 1).dropLast
  | _, ls => nested ls

mutual

/-- A statement as it is printed. -/
def lines : Stmt → List Line
  | empty _ => line ";"
  | expr e _ => line (e ++ ";")
  | declare d _ => line (d.printed ++ ";")
  | block body _ => line "\x7b" ++ nested (allLines body) ++ line "\x7d"
  | cond test yes no _ =>
    line ("if (" ++ test ++ ") \x7b") ++ asBody yes (lines yes) ++
      elseLines no ++ line "\x7d"
  | whileLoop test body _ =>
    line ("while (" ++ test ++ ") \x7b") ++ asBody body (lines body)
      ++ line "\x7d"
  | doWhile body test _ =>
    line "do \x7b" ++ asBody body (lines body)
      ++ line ("\x7d while (" ++ test ++ ");")
  | forLoop init test update body _ =>
    line ("for (" ++ startsPrinted init ++ "; " ++ test.toList.map Fragment.expr ++ "; " ++
      Printed.joined ", " (update.map fun e => [Fragment.expr e]) ++ ") \x7b") ++
      asBody body (lines body) ++ line "\x7d"
  | forEach var iterable body _ =>
    line ("for (" ++ var.type.text ++ " " ++ var.name ++ " : " ++
      iterable ++ ") \x7b") ++
      asBody body (lines body) ++ line "\x7d"
  | switch selector cases _ =>
    line ("switch (" ++ selector ++ ") \x7b") ++
      nested (caseLines cases) ++ line "\x7d"
  | tryCatch resources body catches final _ =>
    (if resources.isEmpty then line "try \x7b"
      else line ("try (" ++ Printed.joined "; " (resources.map LocalDecl.printed) ++
        ") \x7b")) ++
      nested (allLines body) ++ catchLines catches ++ finalLines final ++
      line "\x7d"
  | labeled label body _ => line (label ++ ":") ++ lines body
  | synchronized lock body _ =>
    line ("synchronized (" ++ lock ++ ") \x7b") ++ nested (allLines body) ++
      line "\x7d"
  | ret none _ => line "return;"
  | ret (some e) _ => line ("return " ++ e ++ ";")
  | brk label _ => jumpLine "break" label
  | cont label _ => jumpLine "continue" label
  | raise e _ => line ("throw " ++ e ++ ";")

/-- Statements as they are printed. -/
def allLines : List Stmt → List Line
  | [] => []
  | s :: ss => lines s ++ allLines ss

/-- The second branch of a choice, if there is one. -/
def elseLines : Option Stmt → List Line
  | some s => line "\x7d else \x7b" ++ asBody s (lines s)
  | none => []

/-- Final code, if there is any. -/
def finalLines : Option (List Stmt) → List Line
  | some body => line "\x7d finally \x7b" ++ nested (allLines body)
  | none => []

/-- Cases as they are printed. -/
def caseLines : List SwitchCase → List Line
  | [] => []
  | .mk labels isDefault body :: cs =>
    labelLines labels isDefault ++ nested (allLines body) ++ caseLines cs

/-- Handlers as they are printed. -/
def catchLines : List CatchClause → List Line
  | [] => []
  | .mk param types body :: cs =>
    line ("\x7d catch (" ++ " | ".intercalate (types.map TypeRef.text) ++ " " ++
      param ++ ") \x7b") ++
      nested (allLines body) ++ catchLines cs

end

end Stmt

end Resumable

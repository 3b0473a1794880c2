import Resumable.Symbol.Table
import Resumable.Text.Quoted

/-!
# Printed expressions

* an operand is put between parentheses if it binds more loosely than its place asks for;
* a variable is printed under the name that is unique to it, a free name as it is.
-/

namespace Resumable

/-- A constant as it is printed. -/
def Literal.text : Literal → String
  | .int v => toString v.toInt
  | .bool true => "true"
  | .bool false => "false"
  | .null => "null"
  | .str s => Text.quoted s

/-- An operator in front of its operand as it is printed. -/
def UnaryOp.spelling : UnaryOp → String
  | .neg => "-"
  | .not => "!"

/-- A name as it is printed. -/
def Ident.text (symbols : SymbolTable) (x : Ident) : String :=
  match x.symbol with
  | some symbol => symbols.display symbol
  | none => x.name

namespace Expr

/-- How tightly an operand of an operator in front of it binds. -/
def unaryPrecedence : Nat := 7

/-- How tightly an operand binds that needs no parentheses anywhere. -/
def primaryPrecedence : Nat := 8

/-- How tightly a printed expression binds. -/
def precedence : Expr → Nat
  | assign .. => 0
  | binary op _ _ => op.precedence
  | unary .. => unaryPrecedence
  | literal (.int v) => if v < 0 then unaryPrecedence else primaryPrecedence
  | _ => primaryPrecedence

/-- The text of an expression at a place that asks for at least the precedence `least`. -/
def atLeast (least : Nat) (e : Expr) (text : String) : String :=
  if e.precedence < least then "(" ++ text ++ ")" else text

/-- An increment as it is printed. -/
def stepText (name : String) (delta : Int64) (yieldsOld : Bool) : String :=
  if delta = 1 then if yieldsOld then name ++ "++" else "++" ++ name
  else if delta = -1 then if yieldsOld then name ++ "--" else "--" ++ name
  else name ++ " += " ++ toString delta.toInt

mutual

/-- An expression as it is printed. -/
def text (symbols : SymbolTable) : Expr → String
  | literal l => l.text
  | ident x => x.text symbols
  | unary op e => op.spelling ++ e.atLeast unaryPrecedence (text symbols e)
  | binary op a b =>
    a.atLeast op.precedence (text symbols a) ++ " " ++ op.spelling ++ " " ++
      b.atLeast (op.precedence + 1) (text symbols b)
  | assign x op e =>
    x.text symbols ++ " " ++ (op.map BinaryOp.spelling).getD "" ++ "= " ++ text symbols e
  | increment x delta old => stepText (x.text symbols) delta old
  | call f args => f ++ "(" ++ argsText symbols args ++ ")"
  | method e name args =>
    e.atLeast primaryPrecedence (text symbols e) ++ "." ++ name ++ "(" ++ argsText symbols args ++
      ")"

/-- Arguments as they are printed. -/
def argsText (symbols : SymbolTable) : List Expr → String
  | [] => ""
  | [e] => text symbols e
  | e :: es => text symbols e ++ ", " ++ argsText symbols es

end

end Expr

end Resumable

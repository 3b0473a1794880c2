import Resumable.Tree.TypeRef

/-!
# Expressions

* an identifier may carry the identity of the variable it denotes; one without is free;
* a marker is a call with one argument to one of two configured names: the one that emits a value
  and the one that emits all values of an iterator.
-/

namespace Resumable

/-- The identity of a declared variable. -/
structure SymbolId where
  /-- its index among the declared variables of a procedure; meant to fit a 32-bit word, which
  nothing checks -/
  index : Nat
  deriving DecidableEq, Inhabited

/-- An occurrence of a name. -/
structure Ident where
  /-- the name in the source -/
  name : String
  /-- the variable it denotes, once that is known -/
  symbol : Option SymbolId
  deriving DecidableEq, Inhabited

namespace Ident

/-- An occurrence of a name that is not tied to a variable. -/
def free (name : String) : Ident := ⟨name, none⟩

end Ident

/-- A constant. -/
inductive Literal where
  | int (value : Int64)
  | bool (value : Bool)
  | str (value : String)
  | null
  deriving DecidableEq, Inhabited

/-- The operators between two expressions. -/
inductive BinaryOp where
  | add
  | sub
  | mul
  | div
  | rem
  | eq
  | ne
  | lt
  | le
  | gt
  | ge
  | and
  | or
  deriving DecidableEq, Inhabited

namespace BinaryOp

/-- All binary operators. -/
def all : List BinaryOp := [add, sub, mul, div, rem, eq, ne, lt, le, gt, ge, and, or]

/-- How an operator is written. -/
def spelling : BinaryOp → String
  | add => "+"
  | sub => "-"
  | mul => "*"
  | div => "/"
  | rem => "%"
  | eq => "=="
  | ne => "!="
  | lt => "<"
  | le => "<="
  | gt => ">"
  | ge => ">="
  | and => "&&"
  | or => "||"

/-- How tightly an operator binds; the higher the tighter. -/
def precedence : BinaryOp → Nat
  | or => 1
  | and => 2
  | eq | ne => 3
  | lt | le | gt | ge => 4
  | add | sub => 5
  | mul | div | rem => 6

end BinaryOp

/-- The operators in front of an expression. -/
inductive UnaryOp where
  | neg
  | not
  deriving DecidableEq, Inhabited

/-- An expression. -/
inductive Expr where
  /-- a constant -/
  | literal (l : Literal)
  /-- the value of a variable -/
  | ident (x : Ident)
  /-- an operator and its operand -/
  | unary (op : UnaryOp) (operand : Expr)
  /-- an operator between two operands -/
  | binary (op : BinaryOp) (lhs rhs : Expr)
  /-- `target = value`, or `target op= value` with an operator -/
  | assign (target : Ident) (op : Option BinaryOp) (value : Expr)
  /-- adds `delta` to a variable; its value is the old one if `yieldsOld`, else the new one -/
  | increment (target : Ident) (delta : Int64) (yieldsOld : Bool)
  /-- a call of a function -/
  | call (callee : String) (args : List Expr)
  /-- a call of a method -/
  | method (receiver : Expr) (name : String) (args : List Expr)
  deriving Inhabited

/-- The two names whose calls suspend a procedure. -/
structure Markers where
  /-- emits one value -/
  emit : String
  /-- emits every value of an iterator -/
  emitAll : String
  deriving DecidableEq, Inhabited

/-- Which marker a call is. -/
inductive MarkerKind where
  | emit
  | emitAll
  deriving DecidableEq, Inhabited

/-- The configured name of a marker. -/
def Markers.name (m : Markers) : MarkerKind → String
  | .emit => m.emit
  | .emitAll => m.emitAll

namespace Expr

/-- An integer constant. -/
def int (value : Int64) : Expr := .literal (.int value)

/-- A truth value. -/
def bool (value : Bool) : Expr := .literal (.bool value)

/-- The constant `null`. -/
def null : Expr := .literal .null

/-- The marker that an expression applies at its head, and the argument. -/
def asMarker? (m : Markers) : Expr → Option (MarkerKind × Expr)
  | .call callee [arg] =>
    if callee = m.emit then some (.emit, arg)
    else if callee = m.emitAll then some (.emitAll, arg)
    else none
  | _ => none

mutual

/-- The name of the first marker applied anywhere inside an expression. -/
def findMarker? (m : Markers) : Expr → Option String
  | .literal _ => none
  | .ident _ => none
  | .increment _ _ _ => none
  | .unary _ e => findMarker? m e
  | .binary _ a b => (findMarker? m a).or (findMarker? m b)
  | .assign _ _ e => findMarker? m e
  | .call callee args =>
    match asMarker? m (.call callee args) with
    | some (kind, _) => some (m.name kind)
    | none => findMarkerIn? m args
  | .method e _ args => (findMarker? m e).or (findMarkerIn? m args)

/-- The name of the first marker applied anywhere inside expressions. -/
def findMarkerIn? (m : Markers) : List Expr → Option String
  | [] => none
  | e :: es => (findMarker? m e).or (findMarkerIn? m es)

end

end Expr

end Resumable

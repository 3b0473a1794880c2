import Resumable.Tree.Expr

/-!
# Values

* lists are compared by content; iterators, exceptions and resources by identity;
* what never changes about an exception or a resource is part of its value, so that the text of a
  value hangs on nothing else.
-/

namespace Resumable

/-- The kinds of values. -/
inductive ValueKind where
  | null
  | boolean
  | int
  | string
  | list
  | iterator
  | exception
  | resource
  deriving DecidableEq, Inhabited

/-- The name of a kind. -/
def ValueKind.name : ValueKind → String
  | null => "null"
  | boolean => "boolean"
  | int => "int"
  | string => "String"
  | list => "List"
  | iterator => "Iterator"
  | exception => "Exception"
  | resource => "Resource"

/-- An exception. -/
structure ExceptionRef where
  /-- its identity -/
  id : Nat
  /-- the name of its class -/
  className : String
  /-- what it says -/
  message : String
  deriving DecidableEq, Inhabited

/-- Something that is open until it is closed. -/
structure ResourceRef where
  /-- its identity -/
  id : Nat
  /-- its name -/
  name : String
  /-- whether closing it fails -/
  failsOnClose : Bool
  deriving DecidableEq, Inhabited

/-- A value. -/
inductive Value where
  /-- no reference -/
  | null
  /-- a truth value -/
  | bool (b : Bool)
  /-- an integer -/
  | int (n : Int64)
  /-- a text -/
  | str (s : String)
  /-- a list that never changes -/
  | list (items : List Value)
  /-- an iterator; all copies share its position -/
  | iterator (id : Nat)
  /-- an exception -/
  | exception (e : ExceptionRef)
  /-- a resource -/
  | resource (r : ResourceRef)
  deriving Inhabited

namespace ExceptionRef

/-- The types that every exception belongs to. -/
def rootTypes : List String := ["Throwable", "Exception", "Object"]

/-- Whether an exception belongs to a type: to a root type, or to the one of its class. -/
def isA (e : ExceptionRef) (type : String) : Bool := rootTypes.contains type || type == e.className

end ExceptionRef

namespace Value

/-- The kind of a value. -/
def kind : Value → ValueKind
  | null => .null
  | bool _ => .boolean
  | int _ => .int
  | str _ => .string
  | list _ => .list
  | iterator _ => .iterator
  | exception _ => .exception
  | resource _ => .resource

/-- Whether a value is no reference. -/
def isNull : Value → Bool
  | null => true
  | _ => false

mutual

/-- Whether two values are equal. -/
def same : Value → Value → Bool
  | null, null => true
  | bool a, bool b => a == b
  | int a, int b => a == b
  | str a, str b => a == b
  | list as, list bs => sameItems as bs
  | iterator a, iterator b => a == b
  | exception a, exception b => a.id == b.id
  | resource a, resource b => a.id == b.id
  | _, _ => false

/-- Whether two lists have equal values at equal places. -/
def sameItems : List Value → List Value → Bool
  | [], [] => true
  | a :: as, b :: bs => a.same b && sameItems as bs
  | _, _ => false

end

mutual

/-- The text of a value. -/
def text : Value → String
  | null => "null"
  | bool true => "true"
  | bool false => "false"
  | int n => toString n.toInt
  | str s => s
  | list [] => "[]"
  | list (v :: vs) => "[" ++ v.text ++ moreText vs ++ "]"
  | iterator _ => "<iterator>"
  | exception e => e.className ++ ": " ++ e.message
  | resource r => "resource(" ++ r.name ++ ")"

/-- The text of the values after the first one of a list. -/
def moreText : List Value → String
  | [] => ""
  | v :: vs => ", " ++ v.text ++ moreText vs

end

/-- The value of a constant. -/
def ofLiteral : Literal → Value
  | .int n => int n
  | .bool b => bool b
  | .str s => str s
  | .null => null

/-- The value that a word of a command line stands for: `null`, a truth value, an integer, or else
the word itself. -/
def ofWord (word : String) : Value :=
  match word with
  | "null" => null
  | "true" => bool true
  | "false" => bool false
  | _ =>
    match Text.int64? word with
    | some n => int n
    | none => str word

/-- The value of a variable of type `t` before it is given one. -/
def initial (t : TypeRef) : Value :=
  if t.name == "boolean" then bool false
  else if t.isPrimitive then int 0
  else null

/-- The number of a state as the value of a selector. -/
def ofState (number : Nat) : Value := int (Int64.ofNat number)

/-- Whether a failure is an exception of one of the types. -/
def isAnyOf (failure : Value) (types : List TypeRef) : Bool :=
  match failure with
  | exception e => types.any fun t => e.isA t.name
  | _ => false

end Value

end Resumable

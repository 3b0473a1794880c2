import Resumable.Tree.Expr
import Resumable.Location

/-!
# Statements and procedures

* every statement knows its place in the source;
* a switch falls through from one case to the next; a case may hold labels, the default, or both;
* a try may have resources, handlers and final code.
-/

namespace Resumable

/-- The declaration of a variable. -/
structure LocalDecl where
  /-- the variable -/
  name : Ident
  /-- its type -/
  type : TypeRef
  /-- its first value, if one is given -/
  init : Option Expr
  deriving Inhabited

mutual

/-- A statement. The last field of each is its place. -/
inductive Stmt where
  /-- does nothing -/
  | empty (loc : Location)
  /-- an expression for its effect -/
  | expr (e : Expr) (loc : Location)
  /-- declares a variable -/
  | declare (d : LocalDecl) (loc : Location)
  /-- statements in a scope of their own -/
  | block (body : List Stmt) (loc : Location)
  /-- one of two branches -/
  | cond (test : Expr) (yes : Stmt) (no : Option Stmt) (loc : Location)
  /-- a loop that tests first -/
  | whileLoop (test : Expr) (body : Stmt) (loc : Location)
  /-- a loop that tests last -/
  | doWhile (body : Stmt) (test : Expr) (loc : Location)
  /-- a loop with a header of start, test and update -/
  | forLoop (init : List Stmt) (test : Option Expr) (update : List Expr) (body : Stmt)
      (loc : Location)
  /-- a loop over the values of an iterable -/
  | forEach (var : LocalDecl) (iterable : Expr) (body : Stmt) (loc : Location)
  /-- a choice among cases, with fall-through -/
  | switch (selector : Expr) (cases : List SwitchCase) (loc : Location)
  /-- a body with resources, handlers and final code -/
  | tryCatch (resources : List LocalDecl) (body : List Stmt) (catches : List CatchClause)
      (final : Option (List Stmt)) (loc : Location)
  /-- a statement with a label -/
  | labeled (label : String) (body : Stmt) (loc : Location)
  /-- statements under a lock -/
  | synchronized (lock : Expr) (body : List Stmt) (loc : Location)
  /-- ends the procedure -/
  | ret (value : Option Expr) (loc : Location)
  /-- leaves a loop, a switch or a labelled statement -/
  | brk (label : Option String) (loc : Location)
  /-- goes on with the next round of a loop -/
  | cont (label : Option String) (loc : Location)
  /-- raises an exception -/
  | raise (value : Expr) (loc : Location)

/-- A case of a switch. -/
inductive SwitchCase where
  /-- labels, whether it is the default, and its statements -/
  | mk (labels : List Expr) (isDefault : Bool) (body : List Stmt)

/-- A handler of a try. -/
inductive CatchClause where
  /-- the variable for the failure, the types it handles, and its statements -/
  | mk (param : Ident) (types : List TypeRef) (body : List Stmt)

end

instance : Inhabited Stmt := ⟨.empty .unknown⟩

namespace SwitchCase

/-- The constants that choose the case. -/
def labels : SwitchCase → List Expr
  | mk labels _ _ => labels

/-- Whether the case is chosen when no label fits. -/
def isDefault : SwitchCase → Bool
  | mk _ d _ => d

/-- The statements of the case. -/
def body : SwitchCase → List Stmt
  | mk _ _ body => body

end SwitchCase

namespace CatchClause

/-- The variable that holds the failure. -/
def param : CatchClause → Ident
  | mk x _ _ => x

/-- The types of failures that the handler takes. -/
def types : CatchClause → List TypeRef
  | mk _ ts _ => ts

/-- The statements of the handler. -/
def body : CatchClause → List Stmt
  | mk _ _ body => body

/-- The type of the variable for the failure, among the types that a handler takes. -/
def paramTypeOf : List TypeRef → TypeRef
  | [t] => t
  | _ => .throwable

end CatchClause

namespace Stmt

/-- The place of a statement. -/
def location : Stmt → Location
  | empty loc | expr _ loc | declare _ loc | block _ loc | cond _ _ _ loc | whileLoop _ _ loc
  | doWhile _ _ loc | forLoop _ _ _ _ loc | forEach _ _ _ loc | switch _ _ loc
  | tryCatch _ _ _ _ loc | labeled _ _ loc | synchronized _ _ loc | ret _ loc | brk _ loc
  | cont _ loc | raise _ loc => loc

/-- Whether a statement is one of the four loops. -/
def isLoop : Stmt → Bool
  | whileLoop .. | doWhile .. | forLoop .. | forEach .. => true
  | _ => false

end Stmt

/-- A parameter of a procedure. -/
structure Param where
  /-- the variable -/
  name : Ident
  /-- its type -/
  type : TypeRef
  deriving Inhabited

/-- A procedure that emits values. -/
structure Procedure where
  /-- its name -/
  name : String
  /-- its parameters -/
  params : List Param
  /-- the declared type of what a call returns -/
  returnType : Option TypeRef
  /-- its statements -/
  body : List Stmt
  /-- its place in the source -/
  location : Location
  deriving Inhabited

/-- The type of the emitted values: the first type argument of the declared type. -/
def Procedure.elementType? (p : Procedure) : Option TypeRef :=
  p.returnType.bind fun t => t.args.head?

/-- The procedures of one source. -/
structure ProgramUnit where
  procedures : List Procedure
  deriving Inhabited

/-- The first procedure of that name. -/
def ProgramUnit.procedure? (u : ProgramUnit) (name : String) : Option Procedure :=
  u.procedures.find? fun p => p.name == name

end Resumable

import Resumable.Execution.Run

/-!
# Methods of values

* null has no methods; every other value has `equals` and `toString`;
* what else there is hangs on the kind of the value;
* the values of an iterator come from the host, since they may have to be computed.
-/

namespace Resumable

/-- What bodies can reach outside their own variables. -/
structure Host where
  /-- calls a function -/
  call : String → List Value → Effect Value
  /-- whether an iterator has more values -/
  hasNext : Nat → Effect Bool
  /-- the next value of an iterator -/
  next : Nat → Effect Value

/-- Does something for a call without arguments. -/
def withoutArgs {α : Type} (name : String) (args : List Value) (x : Effect α) : Effect α :=
  match args with
  | [] => x
  | _ => World.fail (.arity name 0 args.length)

/-- Does something with the argument of a call. -/
def withArg {α : Type} (name : String) (args : List Value) (f : Value → Effect α) : Effect α :=
  match args with
  | [a] => f a
  | _ => World.fail (.arity name 1 args.length)

namespace Value

/-- A method that values of the kind do not have. -/
def unknownMethod (v : Value) (name : String) : Effect Value :=
  World.fail (.unknownMethod v.kind name)

/-- The value at an index of a list. -/
def itemAt (items : List Value) (index : Int64) : Effect Value :=
  match index.toInt with
  | .ofNat i =>
    match items[i]? with
    | some v => pure v
    | none => outOfBounds
  | .negSucc _ => outOfBounds
where
  outOfBounds : Effect Value :=
    World.raise "IndexOutOfBoundsException"
      s!"index {index.toInt} out of bounds for length {items.length}"

/-- A method of a list. -/
def listMethod (items : List Value) (name : String) (args : List Value) : Effect Value :=
  match name with
  | "iterator" => withoutArgs name args (World.newIterator (.list items))
  | "size" => withoutArgs name args (pure (int (Int64.ofNat items.length)))
  | "isEmpty" => withoutArgs name args (pure (bool items.isEmpty))
  | "get" => withArg name args fun index => do itemAt items (← index.asInt)
  | _ => unknownMethod (list items) name

/-- A method of an iterator. -/
def iteratorMethod (h : Host) (id : Nat) (name : String) (args : List Value) : Effect Value :=
  match name with
  | "iterator" => withoutArgs name args (pure (iterator id))
  | "hasNext" => withoutArgs name args do return bool (← h.hasNext id)
  | "next" => withoutArgs name args (h.next id)
  | _ => unknownMethod (iterator id) name

/-- A method of a text. -/
def textMethod (s : String) (name : String) (args : List Value) : Effect Value :=
  match name with
  | "length" => withoutArgs name args (pure (int (Int64.ofNat s.length)))
  | "isEmpty" => withoutArgs name args (pure (bool s.isEmpty))
  | _ => unknownMethod (str s) name

/-- A method of an exception. -/
def exceptionMethod (e : ExceptionRef) (name : String) (args : List Value) : Effect Value :=
  match name with
  | "getMessage" => withoutArgs name args (pure (str e.message))
  | "getSuppressed" => withoutArgs name args do return list ((← get).suppressedBy e)
  | "addSuppressed" => withArg name args fun failure => do
    World.addSuppressed (exception e) failure
    return null
  | _ => unknownMethod (exception e) name

/-- A method of a resource. -/
def resourceMethod (r : ResourceRef) (name : String) (args : List Value) : Effect Value :=
  match name with
  | "close" => withoutArgs name args do
    World.closeResource r
    return null
  | "getName" => withoutArgs name args (pure (str r.name))
  | "isClosed" => withoutArgs name args do return bool ((← get).isClosed r)
  | _ => unknownMethod (resource r) name

/-- A method that values of one kind have. -/
def ownMethod (h : Host) (v : Value) (name : String) (args : List Value) : Effect Value :=
  match v with
  | list items => listMethod items name args
  | iterator id => iteratorMethod h id name args
  | str s => textMethod s name args
  | exception e => exceptionMethod e name args
  | resource r => resourceMethod r name args
  | v => unknownMethod v name

/-- Calls a method of a value. -/
def invoke (h : Host) (v : Value) (name : String) (args : List Value) : Effect Value :=
  if v.isNull then World.raise "NullPointerException" s!"cannot invoke `{name}` on null"
  else
    match name with
    | "equals" => withArg name args fun a => pure (bool (v.same a))
    | "toString" => withoutArgs name args (pure (str v.text))
    | _ => ownMethod h v name args

end Value

end Resumable

import Resumable.Execution.Method

/-!
# Evaluation of expressions

* operands are evaluated from left to right; `&&` and `||` leave out the right one where the left
  one decides;
* integers are 64-bit words that wrap, and division goes toward zero;
* `+` with a text on either side joins texts;
* `x op= e` evaluates `e` before it looks at `x`.
-/

namespace Resumable

namespace BinaryOp

/-- An operator on integers that gives an integer. -/
def onInts (lhs rhs : Value) (f : Int64 → Int64 → Int64) : Run Value := do
  let a ← lhs.asInt
  let b ← rhs.asInt
  return .int (f a b)

/-- An operator on integers that refuses zero on the right. -/
def dividing (lhs rhs : Value) (f : Int64 → Int64 → Int64) : Run Value := do
  let a ← lhs.asInt
  let b ← rhs.asInt
  if b = 0 then (World.raise "ArithmeticException" "/ by zero" : Effect Value)
  else return .int (f a b)

/-- An operator that compares integers. -/
def comparing (lhs rhs : Value) (f : Int64 → Int64 → Bool) : Run Value := do
  let a ← lhs.asInt
  let b ← rhs.asInt
  return .bool (f a b)

/-- The sum of two values. -/
def sum : Value → Value → Run Value
  | .str a, b => pure (.str (a ++ b.text))
  | a, .str b => pure (.str (a.text ++ b))
  | a, b => onInts a b (· + ·)

/-- Applies an operator to two values. -/
def apply (op : BinaryOp) (lhs rhs : Value) : Run Value :=
  match op with
  | add => sum lhs rhs
  | sub => onInts lhs rhs (· - ·)
  | mul => onInts lhs rhs (· * ·)
  | div => dividing lhs rhs (· / ·)
  | rem => dividing lhs rhs (· % ·)
  | eq => pure (.bool (lhs.same rhs))
  | ne => pure (.bool (!lhs.same rhs))
  | lt => comparing lhs rhs fun a b => a < b
  | le => comparing lhs rhs fun a b => a ≤ b
  | gt => comparing lhs rhs fun a b => b < a
  | ge => comparing lhs rhs fun a b => b ≤ a
  | and => do if ← lhs.asBool then return .bool (← rhs.asBool) else return .bool false
  | or => do if ← lhs.asBool then return .bool true else return .bool (← rhs.asBool)

end BinaryOp

/-- Applies an operator to a value. -/
def UnaryOp.apply (op : UnaryOp) (v : Value) : Run Value := do
  match op with
  | neg => return .int (-(← v.asInt))
  | not => return .bool (!(← v.asBool))

mutual

/-- The value of an expression. -/
def Expr.eval (h : Host) : Expr → Run Value
  | .literal l => pure (.ofLiteral l)
  | .ident x => Run.load x
  | .unary op operand => do op.apply (← operand.eval h)
  | .binary .and lhs rhs => do
    if ← (← lhs.eval h).asBool then return .bool (← (← rhs.eval h).asBool)
    else return .bool false
  | .binary .or lhs rhs => do
    if ← (← lhs.eval h).asBool then return .bool true
    else return .bool (← (← rhs.eval h).asBool)
  | .binary op lhs rhs => do
    let a ← lhs.eval h
    let b ← rhs.eval h
    op.apply a b
  | .assign target op value => do
    let v ← value.eval h
    let v ←
      match op with
      | some op => do op.apply (← Run.load target) v
      | none => pure v
    Run.store target v
    return v
  | .increment target delta yieldsOld => do
    let old ← (← Run.load target).asInt
    Run.store target (.int (old + delta))
    return .int (if yieldsOld then old else old + delta)
  | .call callee args => do
    let args ← evalAll h args
    h.call callee args
  | .method receiver name args => do
    let v ← receiver.eval h
    let args ← evalAll h args
    v.invoke h name args

/-- The values of expressions, from left to right. -/
def evalAll (h : Host) : List Expr → Run (List Value)
  | [] => pure []
  | e :: es => do
    let v ← e.eval h
    return v :: (← evalAll h es)

end

/-- The truth value of a test. -/
def Expr.test (h : Host) (e : Expr) : Run Bool := do (← e.eval h).asBool

/-- Whether one of the labels has a value; the ones after it are not evaluated. -/
def anyLabel (h : Host) (v : Value) : List Expr → Run Bool
  | [] => pure false
  | e :: es => do if (← e.eval h).same v then return true else anyLabel h v es

/-- Takes a lock; there is none to take on null. -/
def lock (h : Host) (e : Expr) : Run Unit := do
  if (← e.eval h).isNull then
    (World.raise "NullPointerException" "synchronized on null" : Effect Unit)

end Resumable

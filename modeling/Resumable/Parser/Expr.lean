import Resumable.Parser.Reading
import Resumable.Tree.Expr

/-!
# Reading expressions

* assignment binds weakest and groups to the right; only a variable may be assigned;
* binary operators are read by precedence climbing: operators of one precedence group to the left;
* a minus in front of an integer constant makes a negative constant;
* behind an operand stand method calls, and one increment or decrement where the operand is a
  variable.
-/

namespace Resumable

namespace Parser

/-- The binary operator that a token is. -/
def binaryOp? : TokenKind → Option BinaryOp
  | .pipePipe => some .or
  | .ampAmp => some .and
  | .equalEqual => some .eq
  | .bangEqual => some .ne
  | .less => some .lt
  | .lessEqual => some .le
  | .greater => some .gt
  | .greaterEqual => some .ge
  | .plus => some .add
  | .minus => some .sub
  | .star => some .mul
  | .slash => some .div
  | .percent => some .rem
  | _ => none

/-- The assignment that a token is: plain, or with an operator. -/
def assignOp? : TokenKind → Option (Option BinaryOp)
  | .equal => some none
  | .plusEqual => some (some .add)
  | .minusEqual => some (some .sub)
  | .starEqual => some (some .mul)
  | .slashEqual => some (some .div)
  | .percentEqual => some (some .rem)
  | _ => none

/-- What an increment or decrement adds. -/
def stepOf? : TokenKind → Option Int64
  | .plusPlus => some 1
  | .minusMinus => some (-1)
  | _ => none

/-- The negation of an operand; that of an integer constant is a constant. -/
def negate : Expr → Expr
  | .literal (.int v) => .int (-v)
  | e => .unary .neg e

/-- The constant that a token is. -/
def literal? : TokenKind → Option Literal
  | .integer v => some (.int v)
  | .string s => some (.str s)
  | .bool b => some (.bool b)
  | .null => some .null
  | _ => none

mutual

/-- An expression. -/
def expression (eof : Token) (ts : List Token) : Reading Expr ts.length :=
  (binary eof 0 ts).andThen fun lhs r lt =>
    match r, lt with
    | [], lt => .ok lhs [] lt
    | t :: r, lt =>
      match assignOp? t.kind with
      | none => .ok lhs (t :: r) lt
      | some op =>
        have lt := length_lt_of_cons_lt lt
        match lhs with
        | .ident x => (expression eof r).up lt |>.map fun value => .assign x op value
        | _ => .stop ⟨.invalidTarget, (currentToken eof ts).location⟩ r lt
termination_by (ts.length, 5)

/-- Operands and operators of at least the precedence `least`. -/
def binary (eof : Token) (least : Nat) (ts : List Token) : Reading Expr ts.length :=
  (unary eof ts).andThen fun lhs r lt => binaryRest eof least lhs r lt
termination_by (ts.length, 4)

/-- The operators of at least the precedence `least` that follow `lhs`, with their operands. -/
def binaryRest {n : Nat} (eof : Token) (least : Nat) (lhs : Expr) (ts : List Token)
    (lt : ts.length < n) : Reading Expr n :=
  match ts with
  | [] => .ok lhs [] lt
  | t :: r =>
    match binaryOp? t.kind with
    | none => .ok lhs (t :: r) lt
    | some op =>
      if op.precedence < least then .ok lhs (t :: r) lt
      else
        ((binary eof (op.precedence + 1) r).andThen fun rhs r' lt' =>
          binaryRest eof least (.binary op lhs rhs) r' lt').up (length_lt_of_cons_lt lt)
termination_by (ts.length, 3)

/-- An operand with the operators in front of it. -/
def unary (eof : Token) (ts : List Token) : Reading Expr ts.length :=
  match ts with
  | [] => postfixed eof []
  | t :: r =>
    match t.kind with
    | .bang => (unary eof r).up (length_lt_cons t r) |>.map (.unary .not)
    | .minus => (unary eof r).up (length_lt_cons t r) |>.map negate
    | kind =>
      match stepOf? kind with
      | some delta =>
        (expectName eof "expected variable after prefix operator" r).up (length_lt_cons t r) |>.map
          fun name => .increment (.free name) delta false
      | none => postfixed eof (t :: r)
termination_by (ts.length, 3)

/-- An operand with the calls and steps behind it. -/
def postfixed (eof : Token) (ts : List Token) : Reading Expr ts.length :=
  (primary eof ts).andThen fun e r lt => postfixedRest eof e r lt
termination_by (ts.length, 2)

/-- The calls and steps that follow `e`. -/
def postfixedRest {n : Nat} (eof : Token) (e : Expr) (ts : List Token) (lt : ts.length < n) :
    Reading Expr n :=
  match ts with
  | [] => .ok e [] lt
  | t :: r =>
    match t.kind with
    | .dot =>
      ((expectName eof "expected method name after '.'" r).andThen fun name r' lt' =>
        ((arguments eof r').up lt').andThen fun args r'' lt'' =>
          postfixedRest eof (.method e name args) r'' lt'').up (length_lt_of_cons_lt lt)
    | kind =>
      match stepOf? kind, e with
      | some delta, .ident x =>
        postfixedRest eof (.increment x delta true) r (length_lt_of_cons_lt lt)
      | _, _ => .ok e (t :: r) lt
termination_by (ts.length, 1)

/-- A constant, a variable, a call, or an expression between parentheses. -/
def primary (eof : Token) (ts : List Token) : Reading Expr ts.length :=
  match ts with
  | [] => failAt eof "expected expression" []
  | t :: r =>
    match literal? t.kind with
    | some l => .ok (.literal l) r (length_lt_cons t r)
    | none =>
      match t.kind with
      | .identifier name =>
        if currentKind r = .leftParen then
          (arguments eof r).up (length_lt_cons t r) |>.map (.call name)
        else .ok (.ident (.free name)) r (length_lt_cons t r)
      | .leftParen =>
        ((expression eof r).up (length_lt_cons t r)).andThen fun e r' lt =>
          (expect eof .rightParen "expected ')'" r').up lt |>.map fun _ => e
      | _ => failAt eof "expected expression" (t :: r)
termination_by (ts.length, 1)

/-- The arguments of a call, between parentheses. -/
def arguments (eof : Token) (ts : List Token) : Reading (List Expr) ts.length :=
  (expect eof .leftParen "expected '('" ts).andThen fun _ r lt =>
    match skip? .rightParen r lt with
    | some ⟨r', _, lt'⟩ => .ok [] r' lt'
    | none =>
      ((expressions eof r).up lt).andThen fun es r' lt' =>
        (expect eof .rightParen "expected ')' after arguments" r').up lt' |>.map fun _ => es
termination_by (ts.length, 0)

/-- One or more expressions with commas between them. -/
def expressions (eof : Token) (ts : List Token) : Reading (List Expr) ts.length :=
  (expression eof ts).andThen fun e r lt =>
    match skip? .comma r lt with
    | some ⟨r', _, lt'⟩ => (expressions eof r').up lt' |>.map (e :: ·)
    | none => .ok [e] r lt
termination_by (ts.length, 6)

end

end Parser

end Resumable

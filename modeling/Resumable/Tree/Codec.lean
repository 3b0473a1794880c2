import Resumable.Tree.Stmt

/-!
# Trees in JSON

The exchange form of expressions, statements and procedures.

* a node with alternatives is a variant; one without content is its bare name;
* an identifier that denotes no known variable is written without one; every other part that may
  be empty is written as `null`;
* places, labels, resources, handlers, parameters and declared types may be left out on reading.
-/

namespace Resumable

open Json (Decoder slots)

namespace SymbolId

/-- The identity as a number. -/
def toJson (s : SymbolId) : Json := .ofNat s.index

/-- Reads an identity from a number of 32 bits. -/
def ofJson? (j : Json) : Option SymbolId := (Json.word32? j).map SymbolId.mk

end SymbolId

namespace Ident

/-- The occurrence as a record. -/
def toJson (x : Ident) : Json :=
  match x.symbol with
  | some s => .obj [("name", .str x.name), ("symbol", s.toJson)]
  | none => .obj [("name", .str x.name)]

/-- Reads an occurrence from a record. -/
def ofJson? : Decoder Ident
  | _ + 1, j => do
    let [name, symbol] ← slots ["name", "symbol"] j | none
    return ⟨← name.required Json.text?,
      ← symbol.withDefault none (Json.Slot.nullable SymbolId.ofJson?)⟩
  | 0, _ => none

end Ident

namespace Literal

/-- The constant as a variant. -/
def toJson : Literal → Json
  | int v => .obj [("Int", .int v.toInt)]
  | bool b => .obj [("Bool", .bool b)]
  | str s => .obj [("Str", .str s)]
  | null => .str "Null"

/-- Reads a constant from a variant. -/
def ofJson? (levels : Nat) (j : Json) : Option Literal :=
  match levels, j with
  | _, .str "Null" => some null
  | _ + 1, .obj [(tag, j)] =>
    match tag with
    | "Int" => (Json.int64? j).map int
    | "Bool" => (Json.bool? j).map bool
    | "Str" => (Json.text? j).map str
    | "Null" => if j.isNull then some null else none
    | _ => none
  | _, _ => none

end Literal

/-- Reads one of a number of names, bare or as the only member with content `null`. -/
def ofName? {α : Type} (table : String → Option α) (levels : Nat) (j : Json) : Option α :=
  match levels, j with
  | _, .str name => table name
  | _ + 1, .obj [(name, .null)] => table name
  | _, _ => none

namespace BinaryOp

/-- The name of an operator in the exchange form. -/
def tag : BinaryOp → String
  | add => "Add"
  | sub => "Sub"
  | mul => "Mul"
  | div => "Div"
  | rem => "Rem"
  | eq => "Eq"
  | ne => "Ne"
  | lt => "Lt"
  | le => "Le"
  | gt => "Gt"
  | ge => "Ge"
  | and => "And"
  | or => "Or"

/-- The operator of that name. -/
def ofTag? (name : String) : Option BinaryOp := all.find? fun op => op.tag == name

/-- The operator as its name. -/
def toJson (op : BinaryOp) : Json := .str op.tag

/-- Reads an operator from its name. -/
def ofJson? : Decoder BinaryOp := ofName? ofTag?

end BinaryOp

namespace UnaryOp

/-- The operator as its name. -/
def toJson : UnaryOp → Json
  | neg => .str "Neg"
  | not => .str "Not"

/-- The operator of that name. -/
def ofTag? : String → Option UnaryOp
  | "Neg" => some neg
  | "Not" => some not
  | _ => none

/-- Reads an operator from its name. -/
def ofJson? : Decoder UnaryOp := ofName? ofTag?

end UnaryOp

namespace Expr

mutual

/-- The expression as a variant. -/
def toJson : Expr → Json
  | literal l => .obj [("Literal", l.toJson)]
  | ident x => .obj [("Ident", x.toJson)]
  | unary op e => .obj [("Unary", .obj [("op", op.toJson), ("operand", toJson e)])]
  | binary op a b =>
    .obj [("Binary", .obj [("op", op.toJson), ("lhs", toJson a), ("rhs", toJson b)])]
  | assign x op e =>
    .obj [("Assign", .obj [("target", x.toJson), ("op", Json.ofOption BinaryOp.toJson op),
      ("value", toJson e)])]
  | increment x delta old =>
    .obj [("Increment", .obj [("target", x.toJson), ("delta", .int delta.toInt),
      ("postfix", .bool old)])]
  | call f args => .obj [("Call", .obj [("callee", .str f), ("args", .arr (listToJson args))])]
  | method e name args =>
    .obj [("MethodCall", .obj [("receiver", toJson e), ("method", .str name),
      ("args", .arr (listToJson args))])]

/-- Expressions as variants. -/
def listToJson : List Expr → List Json
  | [] => []
  | e :: es => toJson e :: listToJson es

end

mutual

/-- Reads an expression from a variant. -/
def ofJson? (levels : Nat) (j : Json) : Option Expr :=
  match levels, j with
  | levels + 1, .obj [(tag, j)] =>
    match tag, levels with
    | "Literal", levels => (Literal.ofJson? levels j).map literal
    | "Ident", levels => (Ident.ofJson? levels j).map ident
    | "Unary", levels + 1 => do
      let [op, e] ← slots ["op", "operand"] j | none
      return unary (← op.required (UnaryOp.ofJson? levels)) (← e.required (ofJson? levels))
    | "Binary", levels + 1 => do
      let [op, a, b] ← slots ["op", "lhs", "rhs"] j | none
      return binary (← op.required (BinaryOp.ofJson? levels)) (← a.required (ofJson? levels))
        (← b.required (ofJson? levels))
    | "Assign", levels + 1 => do
      let [x, op, e] ← slots ["target", "op", "value"] j | none
      return assign (← x.required (Ident.ofJson? levels))
        (← op.optional (BinaryOp.ofJson? levels)) (← e.required (ofJson? levels))
    | "Increment", levels + 1 => do
      let [x, delta, old] ← slots ["target", "delta", "postfix"] j | none
      return increment (← x.required (Ident.ofJson? levels)) (← delta.required Json.int64?)
        (← old.required Json.bool?)
    | "Call", levels + 1 => do
      let [f, args] ← slots ["callee", "args"] j | none
      return call (← f.required Json.text?) (← args.required (listOfJson? levels))
    | "MethodCall", levels + 1 => do
      let [e, name, args] ← slots ["receiver", "method", "args"] j | none
      return method (← e.required (ofJson? levels)) (← name.required Json.text?)
        (← args.required (listOfJson? levels))
    | _, _ => none
  | _, _ => none

/-- Reads expressions from a list of variants. -/
def listOfJson? (levels : Nat) (j : Json) : Option (List Expr) :=
  match levels, j with
  | levels + 1, .arr items => items.mapM (ofJson? levels)
  | _, _ => none

end

end Expr

namespace LocalDecl

/-- The declaration as a record. -/
def toJson (d : LocalDecl) : Json :=
  .obj [("name", d.name.toJson), ("ty", d.type.toJson), ("init", Json.ofOption Expr.toJson d.init)]

/-- Reads a declaration from a record. -/
def ofJson? : Decoder LocalDecl
  | levels + 1, j => do
    let [name, type, init] ← slots ["name", "ty", "init"] j | none
    return ⟨← name.required (Ident.ofJson? levels), ← type.required (TypeRef.ofJson? levels),
      ← init.withDefault none (Json.Slot.nullable (Expr.ofJson? levels))⟩
  | 0, _ => none

end LocalDecl

namespace Stmt

/-- The record of a statement whose variant is `kind`. -/
def placed (s : Stmt) (kind : Json) : Json :=
  .obj [("kind", kind), ("location", s.location.toJson)]

mutual

/-- What a statement does, as a variant. -/
def kindToJson : Stmt → Json
  | empty _ => .str "Empty"
  | expr e _ => .obj [("Expr", e.toJson)]
  | declare d _ => .obj [("Local", d.toJson)]
  | block body _ => .obj [("Block", .arr (listToJson body))]
  | cond test yes no _ =>
    .obj [("If", .obj [("cond", test.toJson), ("then_branch", placed yes (kindToJson yes)),
      ("else_branch", optionToJson no)])]
  | whileLoop test body _ =>
    .obj [("While", .obj [("cond", test.toJson), ("body", placed body (kindToJson body))])]
  | doWhile body test _ =>
    .obj [("DoWhile", .obj [("body", placed body (kindToJson body)), ("cond", test.toJson)])]
  | forLoop init test update body _ =>
    .obj [("For", .obj [("init", .arr (listToJson init)),
      ("cond", Json.ofOption Expr.toJson test), ("update", .arr (update.map Expr.toJson)),
      ("body", placed body (kindToJson body))])]
  | forEach var iterable body _ =>
    .obj [("ForEach", .obj [("var", var.toJson), ("iterable", iterable.toJson),
      ("body", placed body (kindToJson body))])]
  | switch selector cases _ =>
    .obj [("Switch", .obj [("selector", selector.toJson), ("cases", .arr (casesToJson cases))])]
  | tryCatch resources body catches final _ =>
    .obj [("Try", .obj [("resources", .arr (resources.map LocalDecl.toJson)),
      ("body", .arr (listToJson body)), ("catches", .arr (catchesToJson catches)),
      ("finally", finalToJson final)])]
  | labeled label body _ =>
    .obj [("Labeled", .obj [("label", .str label), ("body", placed body (kindToJson body))])]
  | synchronized lock body _ =>
    .obj [("Synchronized", .obj [("lock", lock.toJson), ("body", .arr (listToJson body))])]
  | ret value _ => .obj [("Return", Json.ofOption Expr.toJson value)]
  | brk label _ => .obj [("Break", Json.ofOption Json.str label)]
  | cont label _ => .obj [("Continue", Json.ofOption Json.str label)]
  | raise value _ => .obj [("Throw", value.toJson)]

/-- Statements as records. -/
def listToJson : List Stmt → List Json
  | [] => []
  | s :: ss => placed s (kindToJson s) :: listToJson ss

/-- A statement that may be missing. -/
def optionToJson : Option Stmt → Json
  | some s => placed s (kindToJson s)
  | none => .null

/-- Final code that may be missing. -/
def finalToJson : Option (List Stmt) → Json
  | some body => .arr (listToJson body)
  | none => .null

/-- The case as a record. -/
def caseToJson : SwitchCase → Json
  | .mk labels isDefault body =>
    .obj [("labels", .arr (labels.map Expr.toJson)), ("is_default", .bool isDefault),
      ("body", .arr (listToJson body))]

/-- Cases as records. -/
def casesToJson : List SwitchCase → List Json
  | [] => []
  | c :: cs => caseToJson c :: casesToJson cs

/-- The handler as a record. -/
def catchToJson : CatchClause → Json
  | .mk param types body =>
    .obj [("param", param.toJson), ("types", .arr (types.map TypeRef.toJson)),
      ("body", .arr (listToJson body))]

/-- Handlers as records. -/
def catchesToJson : List CatchClause → List Json
  | [] => []
  | c :: cs => catchToJson c :: catchesToJson cs

end

/-- The statement as a record. -/
def toJson (s : Stmt) : Json := placed s (kindToJson s)

mutual

/-- Reads a statement from a record. -/
def ofJson? (levels : Nat) (j : Json) : Option Stmt :=
  match levels with
  | levels + 1 => do
    let [kind, loc] ← slots ["kind", "location"] j | none
    let loc ← loc.withDefault .unknown (Location.ofJson? levels)
    kind.required (kindOfJson? levels loc)
  | 0 => none

/-- Reads what the statement at `loc` does from a variant. -/
def kindOfJson? (levels : Nat) (loc : Location) (j : Json) : Option Stmt :=
  match levels, j with
  | _, .str "Empty" => some (empty loc)
  | levels + 1, .obj [(tag, j)] =>
    match tag, levels with
    | "Empty", _ => if j.isNull then some (empty loc) else none
    | "Expr", levels => (Expr.ofJson? levels j).map fun e => expr e loc
    | "Local", levels => (LocalDecl.ofJson? levels j).map fun d => declare d loc
    | "Block", levels => (listOfJson? levels j).map fun body => block body loc
    | "If", levels + 1 => do
      let [test, yes, no] ← slots ["cond", "then_branch", "else_branch"] j | none
      return cond (← test.required (Expr.ofJson? levels)) (← yes.required (ofJson? levels))
        (← no.optional (ofJson? levels)) loc
    | "While", levels + 1 => do
      let [test, body] ← slots ["cond", "body"] j | none
      return whileLoop (← test.required (Expr.ofJson? levels))
        (← body.required (ofJson? levels)) loc
    | "DoWhile", levels + 1 => do
      let [body, test] ← slots ["body", "cond"] j | none
      return doWhile (← body.required (ofJson? levels))
        (← test.required (Expr.ofJson? levels)) loc
    | "For", levels + 1 => do
      let [init, test, update, body] ← slots ["init", "cond", "update", "body"] j | none
      return forLoop (← init.required (listOfJson? levels))
        (← test.optional (Expr.ofJson? levels))
        (← update.required (Json.list? Expr.ofJson? levels))
        (← body.required (ofJson? levels)) loc
    | "ForEach", levels + 1 => do
      let [var, iterable, body] ← slots ["var", "iterable", "body"] j | none
      return forEach (← var.required (LocalDecl.ofJson? levels))
        (← iterable.required (Expr.ofJson? levels)) (← body.required (ofJson? levels)) loc
    | "Switch", levels + 1 => do
      let [selector, cases] ← slots ["selector", "cases"] j | none
      return switch (← selector.required (Expr.ofJson? levels))
        (← cases.required (casesOfJson? levels)) loc
    | "Try", levels + 1 => do
      let [resources, body, catches, final] ←
        slots ["resources", "body", "catches", "finally"] j | none
      return tryCatch (← resources.withDefault [] (Json.list? LocalDecl.ofJson? levels))
        (← body.required (listOfJson? levels))
        (← catches.withDefault [] (catchesOfJson? levels))
        (← final.withDefault none (Json.Slot.nullable (listOfJson? levels))) loc
    | "Labeled", levels + 1 => do
      let [label, body] ← slots ["label", "body"] j | none
      return labeled (← label.required Json.text?) (← body.required (ofJson? levels)) loc
    | "Synchronized", levels + 1 => do
      let [lock, body] ← slots ["lock", "body"] j | none
      return synchronized (← lock.required (Expr.ofJson? levels))
        (← body.required (listOfJson? levels)) loc
    | "Return", levels =>
      (Json.Slot.nullable (Expr.ofJson? levels) j).map fun value => ret value loc
    | "Break", _ => (Json.Slot.nullable Json.text? j).map fun label => brk label loc
    | "Continue", _ => (Json.Slot.nullable Json.text? j).map fun label => cont label loc
    | "Throw", levels => (Expr.ofJson? levels j).map fun value => raise value loc
    | _, _ => none
  | _, _ => none

/-- Reads statements from a list of records. -/
def listOfJson? (levels : Nat) (j : Json) : Option (List Stmt) :=
  match levels, j with
  | levels + 1, .arr items => items.mapM (ofJson? levels)
  | _, _ => none

/-- Reads cases from a list of records. -/
def casesOfJson? (levels : Nat) (j : Json) : Option (List SwitchCase) :=
  match levels, j with
  | levels + 1, .arr items => items.mapM (caseOfJson? levels)
  | _, _ => none

/-- Reads a case from a record. -/
def caseOfJson? (levels : Nat) (j : Json) : Option SwitchCase :=
  match levels with
  | levels + 1 => do
    let [labels, isDefault, body] ← slots ["labels", "is_default", "body"] j | none
    return .mk (← labels.withDefault [] (Json.list? Expr.ofJson? levels))
      (← isDefault.withDefault false Json.bool?) (← body.required (listOfJson? levels))
  | 0 => none

/-- Reads handlers from a list of records. -/
def catchesOfJson? (levels : Nat) (j : Json) : Option (List CatchClause) :=
  match levels, j with
  | levels + 1, .arr items => items.mapM (catchOfJson? levels)
  | _, _ => none

/-- Reads a handler from a record. -/
def catchOfJson? (levels : Nat) (j : Json) : Option CatchClause :=
  match levels with
  | levels + 1 => do
    let [param, types, body] ← slots ["param", "types", "body"] j | none
    return .mk (← param.required (Ident.ofJson? levels))
      (← types.required (Json.list? TypeRef.ofJson? levels))
      (← body.required (listOfJson? levels))
  | 0 => none

end

end Stmt

namespace Param

/-- The parameter as a record. -/
def toJson (p : Param) : Json := .obj [("name", p.name.toJson), ("ty", p.type.toJson)]

/-- Reads a parameter from a record. -/
def ofJson? : Decoder Param
  | levels + 1, j => do
    let [name, type] ← slots ["name", "ty"] j | none
    return ⟨← name.required (Ident.ofJson? levels), ← type.required (TypeRef.ofJson? levels)⟩
  | 0, _ => none

end Param

namespace Procedure

/-- The procedure as a record. -/
def toJson (p : Procedure) : Json :=
  .obj [("name", .str p.name), ("params", .arr (p.params.map Param.toJson)),
    ("return_type", Json.ofOption TypeRef.toJson p.returnType),
    ("body", .arr (Stmt.listToJson p.body)), ("location", p.location.toJson)]

/-- Reads a procedure from a record. -/
def ofJson? : Decoder Procedure
  | levels + 1, j => do
    let [name, params, returnType, body, loc] ←
      slots ["name", "params", "return_type", "body", "location"] j | none
    return ⟨← name.required Json.text?,
      ← params.withDefault [] (Json.list? Param.ofJson? levels),
      ← returnType.withDefault none (Json.Slot.nullable (TypeRef.ofJson? levels)),
      ← body.required (Stmt.listOfJson? levels),
      ← loc.withDefault .unknown (Location.ofJson? levels)⟩
  | 0, _ => none

end Procedure

namespace ProgramUnit

/-- The procedures of a source as a record. -/
def toJson (u : ProgramUnit) : Json :=
  .obj [("procedures", .arr (u.procedures.map Procedure.toJson))]

/-- Reads the procedures of a source from a record. -/
def ofJson? : Decoder ProgramUnit
  | levels + 1, j => do
    let [procedures] ← slots ["procedures"] j | none
    return ⟨← procedures.required (Json.list? Procedure.ofJson? levels)⟩
  | 0, _ => none

end ProgramUnit

end Resumable

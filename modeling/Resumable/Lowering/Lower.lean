import Resumable.Lowering.Parts
import Resumable.Symbol.Scope

/-!
# Lowering of procedures

* `Stmt.lower` ties the constructs together by recursion on the statement;
* `Procedure.lowerBody` lowers the statements of a procedure whose uses are resolved: the selector
  of the root machine is the first new symbol, and the parameters become fields.
-/

namespace Resumable

open Lowering (Part)

mutual

/-- How a statement is lowered. -/
def Stmt.lower : Stmt → Part
  | .empty loc => Part.unlessPlain (.empty loc) fun _ cursor => return cursor
  | .expr e loc => Part.expr e loc
  | .declare d loc => Part.declare d loc
  | .block body loc => Part.unlessPlain (.block body loc) (Part.inScope (lowerAll body))
  | .cond test yes no loc =>
    Part.unlessPlain (.cond test yes no loc)
      (Part.cond test loc yes.lower (lowerElse no))
  | .whileLoop test body loc =>
    Part.unlessPlain (.whileLoop test body loc) (Part.testLoop none true test loc body.lower)
  | .doWhile body test loc =>
    Part.unlessPlain (.doWhile body test loc) (Part.testLoop none false test loc body.lower)
  | .forLoop init test update body loc =>
    Part.unlessPlain (.forLoop init test update body loc)
      (Part.forLoop none (lowerAll init) test update loc body.lower)
  | .forEach var iterable body loc =>
    Part.unlessPlain (.forEach var iterable body loc)
      (Part.forEach none var iterable loc body.lower)
  | .switch selector cases loc =>
    Part.unlessPlain (.switch selector cases loc) (Part.switch selector loc (lowerCases cases))
  | .tryCatch resources body catches final loc =>
    Part.unlessPlain (.tryCatch resources body catches final loc)
      (Part.tryCatch resources (lowerAll body) (lowerCatches catches) (lowerFinal final) loc)
  | .labeled label body loc =>
    Part.unlessPlain (.labeled label body loc) fun ctx cursor => do
      Part.checkLabel ctx label loc
      if body.isLoop then body.lowerLoop label ctx cursor
      else Part.labeled label body.lower ctx cursor
  | .synchronized lock body loc =>
    Part.unlessPlain (.synchronized lock body loc)
      (Part.synchronized lock (fun m => Stmt.firstMarkerIn? m body) loc (lowerAll body))
  | .ret value loc => Part.ret value loc
  | .brk label loc => Part.brk label loc
  | .cont label loc => Part.cont label loc
  | .raise e loc => Part.raise e loc

/-- How a loop with a label is lowered. -/
def Stmt.lowerLoop : Stmt → String → Part
  | .whileLoop test body loc, label => Part.testLoop (some label) true test loc body.lower
  | .doWhile body test loc, label => Part.testLoop (some label) false test loc body.lower
  | .forLoop init test update body loc, label =>
    Part.forLoop (some label) (lowerAll init) test update loc body.lower
  | .forEach var iterable body loc, label =>
    Part.forEach (some label) var iterable loc body.lower
  | s, _ => fun _ _ => throw (.defect (.notALoop s.location))

/-- Statements one after the other. -/
def lowerAll : List Stmt → Part
  | [] => fun _ cursor => return cursor
  | s :: ss => fun ctx cursor => do lowerAll ss ctx (← s.lower ctx cursor)

/-- A branch that may be missing. -/
def lowerElse : Option Stmt → Option Part
  | some s => some s.lower
  | none => none

/-- Final code that may be missing. -/
def lowerFinal : Option (List Stmt) → Option Part
  | some body => some (lowerAll body)
  | none => none

/-- Cases of a switch. -/
def lowerCases : List SwitchCase → List Part.CasePart
  | [] => []
  | .mk labels isDefault body :: cs => ⟨labels, isDefault, lowerAll body⟩ :: lowerCases cs

/-- Handlers of a try. -/
def lowerCatches : List CatchClause → List Part.CatchPart
  | [] => []
  | .mk param types body :: cs => ⟨param, types, lowerAll body⟩ :: lowerCatches cs

end

/-- The lowered statements of a procedure. -/
structure LoweredBody where
  /-- the root machine -/
  machine : Machine
  /-- all tags -/
  tags : TagTable
  /-- all fields -/
  captures : CaptureSet
  /-- all variables -/
  symbols : SymbolTable
  deriving Inhabited

namespace Lowering

/-- The state in which lowering starts: an empty root machine, whose selector is the only field. -/
def State.initial (symbols : SymbolTable) : State :=
  let (selector, symbols) := symbols.declare "selector" .int .synthetic
  { symbols
    tags := .initial
    captures := CaptureSet.empty.insert
      ⟨selector, symbols.display selector, .int, .retained, .selector⟩
    frame := .new .root selector none 0
    outers := []
    scopes := []
    nextMachine := 1 }

/-- Lowers a procedure: its parameters become fields, and its statements states. -/
def procedure (ctx : Context) (p : Procedure) : Lower Unit := do
  p.params.forM fun x => do capture (← declared x.name) x.type .parameter .retained
  let stop ← Part.inScope (lowerAll p.body) ctx (.state .start)
  endWith stop .finish

end Lowering

/-- Lowers the statements of a procedure whose uses are resolved. -/
def Procedure.lowerBody (p : Procedure) (symbols : SymbolTable) (elementType : TypeRef)
    (settings : Settings) : Except LoweringError LoweredBody := do
  let ctx : Lowering.Context := ⟨settings, elementType, []⟩
  let ((), s) ← (Lowering.procedure ctx p).run (.initial symbols)
  s.tags.verify
  return ⟨s.frame.block.finish, s.tags, s.captures, s.symbols⟩

end Resumable

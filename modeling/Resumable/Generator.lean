import Resumable.Lowering.Lower

/-!
# Generator classes

What lowering makes of a procedure: a class whose instances emit what the procedure emits.

* the class is named after the procedure;
* every parameter has a field, and every tag a state.
-/

namespace Resumable

/-- A class of generators. -/
structure GeneratorClass where
  /-- its name -/
  name : String
  /-- the procedure that it stands for -/
  procedure : String
  /-- the type of the emitted values -/
  elementType : TypeRef
  /-- what an instance is made from -/
  params : List Param
  /-- the fields of an instance -/
  captures : CaptureSet
  /-- the machine that an instance runs -/
  advance : Machine
  /-- the tags of all machines -/
  tags : TagTable
  /-- the variables of all machines -/
  symbols : SymbolTable
  deriving Inhabited

namespace GeneratorClass

/-- The number of states of all machines. -/
def stateCount (c : GeneratorClass) : Nat :=
  c.advance.machines.foldl (fun n m => n + m.states.length) 0

/-- The number of machines. -/
def machineCount (c : GeneratorClass) : Nat := c.advance.machines.length

end GeneratorClass

/-- Refuses a parameter without a field. -/
def checkField (captures : CaptureSet) (p : Param) : Except LoweringError Unit :=
  if p.name.symbol.any captures.contains then .ok ()
  else .error (.defect (.noField p.name.name))

/-- The class of a procedure whose statements have been lowered. -/
def Procedure.assemble (p : Procedure) (elementType : TypeRef) (body : LoweredBody)
    (settings : Settings) : Except LoweringError GeneratorClass := do
  body.tags.verify
  p.params.forM (checkField body.captures)
  return {
    name := p.name ++ settings.classSuffix
    procedure := p.name
    elementType
    params := p.params
    captures := body.captures
    advance := body.machine
    tags := body.tags
    symbols := body.symbols }

/-- Lowers a procedure to its class. -/
def Procedure.lower (p : Procedure) (settings : Settings) : Except LoweringError GeneratorClass :=
  let elementType := p.elementType?.getD settings.fallbackElementType
  let (q, symbols) := p.resolve
  do q.assemble elementType (← q.lowerBody symbols elementType settings) settings

/-- An error of lowering, with the procedure that it is about. -/
structure Diagnostic where
  procedure : String
  error : LoweringError

/-- The message of a diagnostic. -/
def Diagnostic.message (d : Diagnostic) : String := s!"{d.procedure}: {d.error.message}"

/-- The classes of procedures and what is wrong with the others, both in the order of the source. -/
structure LoweredUnit where
  classes : List GeneratorClass
  diagnostics : List Diagnostic

/-- Lowers every procedure on its own. -/
def ProgramUnit.lower (u : ProgramUnit) (settings : Settings) : LoweredUnit :=
  let results := u.procedures.map fun p => (p.name, p.lower settings)
  { classes := results.filterMap fun (_, r) => r.toOption
    diagnostics := results.filterMap fun (name, r) =>
      match r with
      | .error e => some ⟨name, e⟩
      | .ok _ => none }

end Resumable

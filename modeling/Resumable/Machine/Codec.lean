import Resumable.Generator

/-!
# Machines in JSON

The exchange form of machines and generator classes.

* tags, states, machines and symbols are bare numbers;
* fields are the members of an object whose names are the numbers of their symbols; a number given
  twice counts once, with its last field.
-/

namespace Resumable

open Json (Decoder slots)

namespace StateId

/-- The state as a number. -/
def toJson (s : StateId) : Json := .ofNat s.number

/-- Reads a state from a number. -/
def ofJson? (j : Json) : Option StateId := (Json.word32? j).map StateId.mk

end StateId

namespace MachineId

/-- The machine as a number. -/
def toJson (m : MachineId) : Json := .ofNat m.number

/-- Reads a machine from a number. -/
def ofJson? (j : Json) : Option MachineId := (Json.word32? j).map MachineId.mk

end MachineId

namespace Tag

/-- The tag as a number. -/
def toJson (t : Tag) : Json := .ofNat t.index

/-- Reads a tag from a number. -/
def ofJson? (j : Json) : Option Tag := (Json.word64? j).map Tag.mk

end Tag

namespace TagSlot

/-- What is known of a tag, as a record. -/
def toJson (s : TagSlot) : Json :=
  .obj [("owner", s.owner.toJson), ("target", Json.ofOption StateId.toJson s.target)]

/-- Reads what is known of a tag from a record. -/
def ofJson? : Decoder TagSlot
  | _ + 1, j => do
    let [owner, target] ← slots ["owner", "target"] j | none
    return ⟨← owner.required MachineId.ofJson?, ← target.optional StateId.ofJson?⟩
  | 0, _ => none

end TagSlot

namespace TagTable

/-- The tags as a record. -/
def toJson (t : TagTable) : Json := .obj [("slots", .arr (t.slots.toList.map TagSlot.toJson))]

/-- Reads tags from a record. -/
def ofJson? : Decoder TagTable
  | levels + 1, j => do
    let [entries] ← Json.slots ["slots"] j | none
    return ⟨(← entries.required (Json.list? TagSlot.ofJson? levels)).toArray⟩
  | 0, _ => none

end TagTable

namespace Liveness

/-- The name of a liveness in the exchange form. -/
def tag : Liveness → String
  | retained => "Retained"
  | clearedAtScopeEnd => "ClearedAtScopeEnd"

/-- The liveness of that name. -/
def ofTag? : String → Option Liveness
  | "Retained" => some retained
  | "ClearedAtScopeEnd" => some clearedAtScopeEnd
  | _ => none

end Liveness

namespace CaptureOrigin

/-- The name of an origin in the exchange form. -/
def tag : CaptureOrigin → String
  | parameter => "Parameter"
  | localVar => "Local"
  | selector => "Selector"
  | synthetic => "Synthetic"

/-- The origin of that name. -/
def ofTag? : String → Option CaptureOrigin
  | "Parameter" => some parameter
  | "Local" => some localVar
  | "Selector" => some selector
  | "Synthetic" => some synthetic
  | _ => none

end CaptureOrigin

namespace Capture

/-- The field as a record. -/
def toJson (c : Capture) : Json :=
  .obj [("symbol", c.symbol.toJson), ("name", .str c.name), ("ty", c.type.toJson),
    ("liveness", .str c.liveness.tag), ("origin", .str c.origin.tag)]

/-- Reads a field from a record. -/
def ofJson? : Decoder Capture
  | levels + 1, j => do
    let [symbol, name, type, liveness, origin] ←
      slots ["symbol", "name", "ty", "liveness", "origin"] j | none
    return ⟨← symbol.required SymbolId.ofJson?, ← name.required Json.text?,
      ← type.required (TypeRef.ofJson? levels),
      ← liveness.required (ofName? Liveness.ofTag? levels),
      ← origin.required (ofName? CaptureOrigin.ofTag? levels)⟩
  | 0, _ => none

end Capture

namespace CaptureSet

/-- The number that the name of a member spells: digits without a leading zero. -/
def key? (name : String) : Option SymbolId :=
  let ds := name.toList
  if ds.length > 1 && ds.head? == some '0' then none
  else (Text.natBelow? (Nat.pow 2 32) ds).map SymbolId.mk

/-- The fields as a record. -/
def toJson (s : CaptureSet) : Json :=
  .obj [("fields", .obj (s.fields.map fun (k, c) => (toString k.index, c.toJson)))]

/-- Reads the fields from the members of an object. -/
def ofMembers? (levels : Nat) (members : List (String × Json)) : Option CaptureSet :=
  members.foldlM (fun s (name, j) => do
    return ⟨insertEntry (← key? name) (← Capture.ofJson? levels j) s.fields⟩) empty

/-- Reads fields from a record. -/
def ofJson? : Decoder CaptureSet
  | levels + 1, j => do
    let [fields] ← slots ["fields"] j | none
    fields.required fun j =>
      match levels, j with
      | levels + 1, .obj members => ofMembers? levels members
      | _, _ => none
  | 0, _ => none

end CaptureSet

namespace SwitchArm

/-- The arm as a record. -/
def toJson (a : SwitchArm) : Json :=
  .obj [("labels", .arr (a.labels.map Expr.toJson)), ("is_default", .bool a.isDefault),
    ("target", a.target.toJson)]

/-- Reads an arm from a record. -/
def ofJson? : Decoder SwitchArm
  | levels + 1, j => do
    let [labels, isDefault, target] ← slots ["labels", "is_default", "target"] j | none
    return ⟨← labels.required (Json.list? Expr.ofJson? levels), ← isDefault.required Json.bool?,
      ← target.required Tag.ofJson?⟩
  | 0, _ => none

end SwitchArm

namespace Handler

/-- The handler as a record. -/
def toJson (h : Handler) : Json :=
  .obj [("param", h.param.toJson), ("types", .arr (h.types.map TypeRef.toJson)),
    ("entry", h.entry.toJson)]

/-- Reads a handler from a record. -/
def ofJson? : Decoder Handler
  | levels + 1, j => do
    let [param, types, entry] ← slots ["param", "types", "entry"] j | none
    return ⟨← param.required SymbolId.ofJson?, ← types.required (Json.list? TypeRef.ofJson? levels),
      ← entry.required Tag.ofJson?⟩
  | 0, _ => none

end Handler

namespace Op

/-- The members of a guard's record behind its machine. -/
def guardMembers (g : GuardFields) : List (String × Json) :=
  [("resources", .arr (g.resources.map SymbolId.toJson)),
    ("handlers", .arr (g.handlers.map Handler.toJson)), ("in_handler", g.inHandler.toJson),
    ("pending", g.pending.toJson), ("pending_jump", g.pendingJump.toJson)]

mutual

/-- The op as a variant. -/
def toJson : Op → Json
  | plain s => .obj [("Plain", s.toJson)]
  | assign target value =>
    .obj [("Assign", .obj [("target", target.toJson), ("value", value.toJson)])]
  | clear field => .obj [("Clear", field.toJson)]
  | setState tag => .obj [("SetState", tag.toJson)]
  | jump tag => .obj [("Jump", tag.toJson)]
  | yield value => .obj [("Yield", value.toJson)]
  | finish => .str "Finish"
  | cond test yes no =>
    .obj [("If", .obj [("cond", test.toJson), ("then_ops", .arr (listToJson yes)),
      ("else_ops", .arr (listToJson no))])]
  | switch selector arms =>
    .obj [("Switch", .obj [("selector", selector.toJson),
      ("arms", .arr (arms.map SwitchArm.toJson))])]
  | synchronized lock body =>
    .obj [("Synchronized", .obj [("lock", lock.toJson), ("body", .arr (listToJson body))])]
  | guarded machine fields =>
    .obj [("Guard", .obj (("machine", machineToJson machine) :: guardMembers fields))]
  | rethrow pending => .obj [("RethrowPending", pending.toJson)]

/-- Ops as variants. -/
def listToJson : List Op → List Json
  | [] => []
  | op :: ops => toJson op :: listToJson ops

/-- States as records. -/
def statesToJson : List MachineState → List Json
  | [] => []
  | .mk id ops :: states =>
    .obj [("id", id.toJson), ("ops", .arr (listToJson ops))] :: statesToJson states

/-- The machine as a record. -/
def machineToJson : Machine → Json
  | .mk id selector states =>
    .obj [("id", id.toJson), ("selector", selector.toJson), ("states", .arr (statesToJson states))]

end

/-- Reads what a guard keeps beside its machine. -/
def guardFieldsOfSlots? (levels : Nat) : List Json.Slot → Option GuardFields
  | [resources, handlers, inHandler, pending, pendingJump] => do
    return ⟨← resources.required (Json.list? (fun _ => SymbolId.ofJson?) levels),
      ← handlers.required (Json.list? Handler.ofJson? levels),
      ← inHandler.required SymbolId.ofJson?, ← pending.required SymbolId.ofJson?,
      ← pendingJump.required SymbolId.ofJson?⟩
  | _ => none

mutual

/-- Reads an op from a variant. -/
def ofJson? (levels : Nat) (j : Json) : Option Op :=
  match levels, j with
  | _, .str "Finish" => some finish
  | levels + 1, .obj [(tag, j)] =>
    match tag, levels with
    | "Finish", _ => if j.isNull then some finish else none
    | "Plain", levels => (Stmt.ofJson? levels j).map plain
    | "Assign", levels + 1 => do
      let [target, value] ← slots ["target", "value"] j | none
      return assign (← target.required SymbolId.ofJson?) (← value.required (Expr.ofJson? levels))
    | "Clear", _ => (SymbolId.ofJson? j).map clear
    | "SetState", _ => (Tag.ofJson? j).map setState
    | "Jump", _ => (Tag.ofJson? j).map jump
    | "Yield", levels => (Expr.ofJson? levels j).map yield
    | "If", levels + 1 => do
      let [test, yes, no] ← slots ["cond", "then_ops", "else_ops"] j | none
      return cond (← test.required (Expr.ofJson? levels)) (← yes.required (listOfJson? levels))
        (← no.required (listOfJson? levels))
    | "Switch", levels + 1 => do
      let [selector, arms] ← slots ["selector", "arms"] j | none
      return switch (← selector.required (Expr.ofJson? levels))
        (← arms.required (Json.list? SwitchArm.ofJson? levels))
    | "Synchronized", levels + 1 => do
      let [lock, body] ← slots ["lock", "body"] j | none
      return synchronized (← lock.required (Expr.ofJson? levels))
        (← body.required (listOfJson? levels))
    | "Guard", levels + 1 => do
      let machine :: fields ← slots ["machine", "resources", "handlers", "in_handler", "pending",
        "pending_jump"] j | none
      return guarded (← machine.required (machineOfJson? levels))
        (← guardFieldsOfSlots? levels fields)
    | "RethrowPending", _ => (SymbolId.ofJson? j).map rethrow
    | _, _ => none
  | _, _ => none

/-- Reads ops from a list of variants. -/
def listOfJson? (levels : Nat) (j : Json) : Option (List Op) :=
  match levels, j with
  | levels + 1, .arr items => items.mapM (ofJson? levels)
  | _, _ => none

/-- Reads a state from a record. -/
def stateOfJson? (levels : Nat) (j : Json) : Option MachineState :=
  match levels with
  | levels + 1 => do
    let [id, ops] ← slots ["id", "ops"] j | none
    return .mk (← id.required StateId.ofJson?) (← ops.required (listOfJson? levels))
  | 0 => none

/-- Reads states from a list of records. -/
def statesOfJson? (levels : Nat) (j : Json) : Option (List MachineState) :=
  match levels, j with
  | levels + 1, .arr items => items.mapM (stateOfJson? levels)
  | _, _ => none

/-- Reads a machine from a record. -/
def machineOfJson? (levels : Nat) (j : Json) : Option Machine :=
  match levels with
  | levels + 1 => do
    let [id, selector, states] ← slots ["id", "selector", "states"] j | none
    return .mk (← id.required MachineId.ofJson?) (← selector.required SymbolId.ofJson?)
      (← states.required (statesOfJson? levels))
  | 0 => none

end

end Op

namespace Machine

/-- The machine as a record. -/
def toJson (m : Machine) : Json := Op.machineToJson m

/-- Reads a machine from a record. -/
def ofJson? : Decoder Machine := Op.machineOfJson?

end Machine

namespace GeneratorClass

/-- The class as a record. -/
def toJson (c : GeneratorClass) : Json :=
  .obj [("name", .str c.name), ("procedure", .str c.procedure),
    ("element_type", c.elementType.toJson), ("params", .arr (c.params.map Param.toJson)),
    ("captures", c.captures.toJson), ("advance", c.advance.toJson), ("tags", c.tags.toJson),
    ("symbols", c.symbols.toJson)]

/-- Reads a class from a record. -/
def ofJson? : Decoder GeneratorClass
  | levels + 1, j => do
    let [name, procedure, elementType, params, captures, advance, tags, symbols] ←
      slots ["name", "procedure", "element_type", "params", "captures", "advance", "tags",
        "symbols"] j | none
    return ⟨← name.required Json.text?, ← procedure.required Json.text?,
      ← elementType.required (TypeRef.ofJson? levels),
      ← params.required (Json.list? Param.ofJson? levels),
      ← captures.required (CaptureSet.ofJson? levels),
      ← advance.required (Machine.ofJson? levels), ← tags.required (TagTable.ofJson? levels),
      ← symbols.required (SymbolTable.ofJson? levels)⟩
  | 0, _ => none

end GeneratorClass

end Resumable

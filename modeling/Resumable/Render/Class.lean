import Resumable.Render.Stmt
import Resumable.Generator

/-!
# Printed classes

The source of a generator class.

* every machine is a method: a loop around a switch over the selector; the method answers whether a
  value has been stored;
* a guard is a loop around a try that runs the method of the nested machine again whenever a
  handler has been entered;
* a tag without a state is printed as -1.
-/

namespace Resumable

/-- What the ops of a machine are printed with. -/
structure OpPrinter where
  /-- the class -/
  cls : GeneratorClass
  /-- the label of the loop around the switch -/
  label : String
  /-- the selector -/
  selector : SymbolId

/-- The name of the method of a machine. -/
def MachineId.methodName (id : MachineId) : String :=
  if id = .root then "advance" else s!"advance${id.number}"

namespace GeneratorClass

/-- The number of the state that a tag stands for. -/
def stateText (c : GeneratorClass) (tag : Tag) : String :=
  match c.tags.target? tag with
  | some state => toString state.number
  | none => "-1"

/-- Closes resources in reverse order; a failure is kept with the one at hand, if there is one. -/
def closeLines (resources : List SymbolId) (suppress : Bool) : List Line :=
  resources.reverse.flatMap fun r : SymbolId =>
    let close := line (OwnName.closing ++ ".close();")
    line ("if (" ++ r ++ " != null) \x7b") ++
      nested (line ("AutoCloseable " ++ OwnName.closing ++ " = " ++ r ++ ";") ++
        line (r ++ " = null;") ++
        (if suppress then
          line "try \x7b" ++ nested close ++
            line ("\x7d catch (Throwable " ++ OwnName.suppressed ++ ") \x7b") ++
            nested (line (OwnName.failure ++ ".addSuppressed(" ++ OwnName.suppressed ++ ");")) ++
            line "\x7d"
        else close)) ++
      line "\x7d"

/-- A handler of a guard as it is printed. -/
def handlerLines (c : GeneratorClass) (label : String) (handling selector : SymbolId)
    (h : Handler) :
    List Line :=
  let type := ((c.captures.get? h.param).map fun field => field.type.text).getD "Throwable"
  line ("if (" ++
    Printed.joined " || " (h.types.map fun t => OwnName.failure ++ (" instanceof " ++ t.text)) ++
      ") \x7b") ++
    nested (line (handling ++ " = true;") ++
      line (h.param ++ (" = (" ++ type ++ ") ") ++ OwnName.failure ++ ";") ++
      line (selector ++ (" = " ++ c.stateText h.entry ++ ";")) ++
      line ("continue " ++ label ++ ";")) ++
    line "\x7d"

/-- A guard as it is printed. -/
def guardLines (c : GeneratorClass) (machine : Machine) (g : GuardFields) : List Line :=
  let label := s!"guard{machine.id.number}"
  let park := line (g.pending ++ " = " ++ OwnName.failure ++ ";") ++ line ("break " ++ label ++ ";")
  line (label ++ ": while (true) \x7b") ++
    nested (line "try \x7b" ++
      nested (line ("if (" ++ machine.id.methodName ++ "()) \x7b") ++
        nested (line "return true;") ++ line "\x7d" ++
        (if g.resources.isEmpty then []
          else line ("if (!" ++ g.inHandler ++ ") \x7b") ++
            nested (closeLines g.resources false) ++ line "\x7d") ++
        line ("break " ++ label ++ ";")) ++
      line ("\x7d catch (Throwable " ++ OwnName.failure ++ ") \x7b") ++
      nested (line ("if (" ++ g.inHandler ++ ") \x7b") ++ nested park ++ line "\x7d" ++
        closeLines g.resources true ++
        line (g.pendingJump ++ " = -1;") ++
        g.handlers.flatMap (c.handlerLines label g.inHandler machine.selector) ++ park) ++
      line "\x7d") ++
    line "\x7d"

end GeneratorClass

namespace OpPrinter

/-- Stores a state in the selector. -/
def selectLine (p : OpPrinter) (state : String) : List Line :=
  line (p.selector ++ (" = " ++ state ++ ";"))

/-- Goes on at the state of a tag. -/
def jumpLines (p : OpPrinter) (tag : Tag) : List Line :=
  p.selectLine (p.cls.stateText tag) ++ line ("continue " ++ p.label ++ ";")

/-- An arm of a switch as it is printed. -/
def armLines (p : OpPrinter) (arm : SwitchArm) : List Line :=
  Stmt.labelLines arm.labels arm.isDefault ++ nested (p.jumpLines arm.target)

mutual

/-- An op as it is printed. -/
def opLines (p : OpPrinter) : Op → List Line
  | .plain s => s.lines
  | .assign target value =>
    line (target ++ " = " ++ value ++ ";")
  | .clear field => line (field ++ " = null;")
  | .setState tag => p.selectLine (p.cls.stateText tag)
  | .jump tag => p.jumpLines tag
  | .yield value =>
    line (OwnName.current ++ " = " ++ value ++ ";") ++ line "return true;"
  | .finish => p.selectLine "0" ++ line "return false;"
  | .cond test yes no =>
    line ("if (" ++ test ++ ") \x7b") ++ nested (opsLines p yes) ++
      (if no.isEmpty then [] else line "\x7d else \x7b" ++ nested (opsLines p no)) ++ line "\x7d"
  | .switch selector arms =>
    line ("switch (" ++ selector ++ ") \x7b") ++
      nested (arms.flatMap p.armLines) ++ line "\x7d"
  | .synchronized lock body =>
    line ("synchronized (" ++ lock ++ ") \x7b") ++ nested (opsLines p body) ++
      line "\x7d"
  | .guarded machine fields => p.cls.guardLines machine fields
  | .rethrow pending =>
    line ("if (" ++ pending ++ " != null) \x7b") ++
      nested (line ("Throwable " ++ OwnName.rethrown ++ " = " ++ pending ++ ";") ++
        line (pending ++ " = null;") ++
        line ("throw sneakyThrow(" ++ OwnName.rethrown ++ ");")) ++
      line "\x7d"

/-- Ops as they are printed. -/
def opsLines (p : OpPrinter) : List Op → List Line
  | [] => []
  | op :: ops => opLines p op ++ opsLines p ops

end

end OpPrinter

namespace GeneratorClass

/-- The method of a machine as it is printed. -/
def machineLines (c : GeneratorClass) (m : Machine) : List Line :=
  let p : OpPrinter := ⟨c, s!"dispatch{m.id.number}", m.selector⟩
  line ("private boolean " ++ m.id.methodName ++ "() \x7b") ++
    nested (line (p.label ++ ": while (true) \x7b") ++
      nested (line ("switch (" ++ p.selector ++ ") \x7b") ++
        nested (line "case 0:" ++ nested (line ("break " ++ p.label ++ ";")) ++
          m.states.flatMap (fun s =>
            line (s!"case {s.id.number}: \x7b") ++ nested (p.opsLines s.ops) ++ line "\x7d") ++
          line "default:" ++
          nested (line "throw new IllegalStateException(\"Unreachable generator step\");")) ++
        line "\x7d") ++
      line "\x7d" ++
      line "return false;") ++
    line "\x7d"

/-- The constructor as it is printed. -/
def constructorLines (c : GeneratorClass) : List Line :=
  let params := Printed.joined ", "
      (c.params.map fun p => (p.type.text ++ " ") ++ [Fragment.argument p.name])
  line (("public " ++ c.name ++ "(") ++ params ++ ") \x7b") ++
    nested (c.params.flatMap (fun p =>
        line ("this." ++ p.name ++ " = " ++ [Fragment.argument p.name] ++ ";")) ++
      line ("this." ++ c.advance.selector ++ " = 1;")) ++
    line "\x7d"

/-- The methods that ask for values as they are printed. -/
def protocolLines (c : GeneratorClass) : List Line :=
  let element := c.elementType.text
  line "@Override" ++
    line "public boolean hasNext() \x7b" ++
    nested (line ("if (!" ++ OwnName.buffered ++ ") \x7b") ++
      nested (line "try \x7b" ++
        nested (line (OwnName.buffered ++ " = advance();")) ++
        line ("\x7d catch (Throwable " ++ OwnName.failure ++ ") \x7b") ++
        nested (line (c.advance.selector ++ " = 0;") ++
          line ("throw sneakyThrow(" ++ OwnName.failure ++ ");")) ++
        line "\x7d") ++
      line "\x7d" ++
      line ("return " ++ OwnName.buffered ++ ";")) ++
    line "\x7d" ++
    [.blank] ++
    line "@Override" ++
    line ("public " ++ element ++ " next() \x7b") ++
    nested (line "if (!hasNext()) \x7b" ++
      nested (line ("throw new java.util.NoSuchElementException(" ++
        "\"Called next on finished generator\");")) ++
      line "\x7d" ++
      line ((element ++ " ") ++ OwnName.value ++ " = " ++ OwnName.current ++ ";") ++
      line (OwnName.current ++ " = null;") ++
      line (OwnName.buffered ++ " = false;") ++
      line ("return " ++ OwnName.value ++ ";")) ++
    line "\x7d" ++
    [.blank] ++
    line "@SuppressWarnings(\"unchecked\")" ++
    line ("private static <T extends Throwable> RuntimeException sneakyThrow(Throwable " ++
      OwnName.thrown ++ ") throws T \x7b") ++
    nested (line ("throw (T) " ++ OwnName.thrown ++ ";")) ++
    line "\x7d"

/-- The class as it is printed. -/
def lines (c : GeneratorClass) : List Line :=
  line ("public final class " ++ c.name ++ " implements java.util.Iterator<" ++
      c.elementType.text ++ "> \x7b") ++
    nested (c.captures.toList.flatMap (fun f =>
        line (("private " ++ f.type.text ++ " ") ++ [Fragment.declared f] ++ ";")) ++
      line (("private " ++ c.elementType.text ++ " ") ++ OwnName.current ++ ";") ++
      line ("private boolean " ++ OwnName.buffered ++ ";") ++
      [.blank] ++
      c.constructorLines ++
      c.advance.machines.flatMap (fun m => .blank :: c.machineLines m) ++
      [.blank] ++
      c.protocolLines) ++
    line "\x7d"

/-- The source of the class. -/
def render (c : GeneratorClass) : String := writeLines c.symbols c.lines

end GeneratorClass

end Resumable

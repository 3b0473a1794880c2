import Resumable.Proofs.Code
import Resumable.Proofs.Writes

/-!
# What code stores to

* `Phrase.stores` are the variables that the code of a phrase stores to, apart from the resources of
  guards;
* `Phrase.tries` are the tries in a phrase that get a guard, in order.
-/

namespace Resumable

open List

/-! ## What code stores to -/

/-- The variables that the first values of resources give a value to. -/
def initWrites (resources : List LocalDecl) : List SymbolId :=
  resources.flatMap fun d => writesOf? d.init

namespace Stmt

variable {m : Markers} {s : Stmt}

/-- The variables that a statement stores to that is lowered in parts, or else kept. -/
def orWrites (m : Markers) (s : Stmt) (parts : List SymbolId) : List SymbolId :=
  if s.needsLowering m then parts else s.writes

mutual

/-- The variables that the code of a statement stores to, the resources of guards apart. -/
def stores (m : Markers) : Stmt → List SymbolId
  | empty _ => []
  | expr e _ => e.writes
  | declare d _ => d.writes
  | block body loc => orWrites m (block body loc) (storesAll m body)
  | cond test yes no loc =>
    orWrites m (cond test yes no loc) (test.writes ++ stores m yes ++ storesElse m no)
  | whileLoop test body loc => orWrites m (whileLoop test body loc) (test.writes ++ stores m body)
  | doWhile body test loc => orWrites m (doWhile body test loc) (test.writes ++ stores m body)
  | forLoop init test update body loc =>
    orWrites m (forLoop init test update body loc)
      (storesAll m init ++ writesOf? test ++ writesOf update ++ stores m body)
  | forEach var iterable body loc =>
    orWrites m (forEach var iterable body loc)
      (var.name.symbol.toList ++ iterable.writes ++ stores m body)
  | switch selector cases loc =>
    orWrites m (switch selector cases loc) (selector.writes ++ storesCases m cases)
  | tryCatch resources body catches final loc =>
    orWrites m (tryCatch resources body catches final loc)
      (initWrites resources ++ storesAll m body ++ storesCatches m catches ++ storesFinal m final)
  | labeled label body loc =>
    orWrites m (labeled label body loc) <|
      match body with
      | whileLoop test body _ => test.writes ++ stores m body
      | doWhile body test _ => test.writes ++ stores m body
      | forLoop init test update body _ =>
        storesAll m init ++ writesOf? test ++ writesOf update ++ stores m body
      | forEach var iterable body _ => var.name.symbol.toList ++ iterable.writes ++ stores m body
      | s => stores m s
  | synchronized lock body loc =>
    orWrites m (synchronized lock body loc) (lock.writes ++ storesAll m body)
  | ret value _ => writesOf? value
  | brk _ _ => []
  | cont _ _ => []
  | raise value _ => value.writes

/-- The variables that the code of statements stores to. -/
def storesAll (m : Markers) : List Stmt → List SymbolId
  | [] => []
  | s :: ss => stores m s ++ storesAll m ss

/-- The variables that the code of a branch that may be missing stores to. -/
def storesElse (m : Markers) : Option Stmt → List SymbolId
  | none => []
  | some s => stores m s

/-- The variables that the code of final code that may be missing stores to. -/
def storesFinal (m : Markers) : Option (List Stmt) → List SymbolId
  | none => []
  | some body => storesAll m body

/-- The variables that the code of cases stores to. -/
def storesCases (m : Markers) : List SwitchCase → List SymbolId
  | [] => []
  | .mk labels _ body :: cs => writesOf labels ++ storesAll m body ++ storesCases m cs

/-- The variables that the code of handlers stores to. -/
def storesCatches (m : Markers) : List CatchClause → List SymbolId
  | [] => []
  | .mk param _ body :: cs => param.symbol.toList ++ storesAll m body ++ storesCatches m cs

end

/-- The variables that the code of a loop stores to. -/
def loopStores (m : Markers) : Stmt → List SymbolId
  | whileLoop test body _ => test.writes ++ stores m body
  | doWhile body test _ => test.writes ++ stores m body
  | forLoop init test update body _ =>
    storesAll m init ++ writesOf? test ++ writesOf update ++ stores m body
  | forEach var iterable body _ => var.name.symbol.toList ++ iterable.writes ++ stores m body
  | s => stores m s

theorem orWrites_pos (h : s.needsLowering m) (parts : List SymbolId) :
    orWrites m s parts = parts := if_pos h

theorem orWrites_neg (h : s.needsLowering m = false) (parts : List SymbolId) :
    orWrites m s parts = s.writes := if_neg (by rw [h]; exact Bool.false_ne_true)

/-- A statement that is kept stores to what it writes. -/
theorem stores_of_plain (h : s.needsLowering m = false) : s.stores m = s.writes := by
  cases s with
  | block | cond | whileLoop | doWhile | forLoop | forEach | switch | tryCatch
  | synchronized => exact orWrites_neg h _
  | labeled label body =>
    cases body with
    | _ => exact orWrites_neg h _
  | _ => rfl

theorem stores_of_loop (h : s.needsLowering m) (hloop : s.isLoop) :
    s.stores m = s.loopStores m := by
  cases s with
  | whileLoop | doWhile | forLoop | forEach => exact orWrites_pos h _
  | _ => cases hloop

theorem stores_labeled {label : String} {loc : Location}
    (h : (Stmt.labeled label s loc).needsLowering m) :
    (Stmt.labeled label s loc).stores m = s.loopStores m := by
  cases s with
  | _ => exact orWrites_pos h _

theorem loopStores_of_not_loop (h : s.isLoop = false) : s.loopStores m = s.stores m := by
  cases s with
  | whileLoop | doWhile | forLoop | forEach => cases h
  | _ => rfl

/-- The tries in the parts of a statement that is lowered; none in one that is kept. -/
def orNone (m : Markers) (s : Stmt) (parts : List Stmt) : List Stmt :=
  if s.needsLowering m then parts else []

mutual

/-- The tries that get a guard, each before those inside it. -/
def tries (m : Markers) : Stmt → List Stmt
  | block body loc => orNone m (block body loc) (triesAll m body)
  | cond test yes no loc => orNone m (cond test yes no loc) (tries m yes ++ triesElse m no)
  | whileLoop test body loc => orNone m (whileLoop test body loc) (tries m body)
  | doWhile body test loc => orNone m (doWhile body test loc) (tries m body)
  | forLoop init test update body loc =>
    orNone m (forLoop init test update body loc) (triesAll m init ++ tries m body)
  | forEach var iterable body loc => orNone m (forEach var iterable body loc) (tries m body)
  | switch selector cases loc => orNone m (switch selector cases loc) (triesCases m cases)
  | tryCatch rs body catches final loc =>
    orNone m (tryCatch rs body catches final loc)
      (tryCatch rs body catches final loc ::
        (triesAll m body ++ triesCatches m catches ++ triesFinal m final))
  | labeled label body loc =>
    orNone m (labeled label body loc) <|
      match body with
      | whileLoop _ body _ => tries m body
      | doWhile body _ _ => tries m body
      | forLoop init _ _ body _ => triesAll m init ++ tries m body
      | forEach _ _ body _ => tries m body
      | s => tries m s
  | synchronized lock body loc => orNone m (synchronized lock body loc) (triesAll m body)
  | empty _ | expr _ _ | declare _ _ | ret _ _ | brk _ _ | cont _ _ | raise _ _ => []

/-- The tries in statements that get a guard. -/
def triesAll (m : Markers) : List Stmt → List Stmt
  | [] => []
  | s :: ss => tries m s ++ triesAll m ss

/-- The tries in a branch that may be missing. -/
def triesElse (m : Markers) : Option Stmt → List Stmt
  | none => []
  | some s => tries m s

/-- The tries in final code that may be missing. -/
def triesFinal (m : Markers) : Option (List Stmt) → List Stmt
  | none => []
  | some body => triesAll m body

/-- The tries in cases. -/
def triesCases (m : Markers) : List SwitchCase → List Stmt
  | [] => []
  | .mk _ _ body :: cs => triesAll m body ++ triesCases m cs

/-- The tries in handlers. -/
def triesCatches (m : Markers) : List CatchClause → List Stmt
  | [] => []
  | .mk _ _ body :: cs => triesAll m body ++ triesCatches m cs

end

/-- The tries in a loop that get a guard. -/
def loopTries (m : Markers) : Stmt → List Stmt
  | whileLoop _ body _ => tries m body
  | doWhile body _ _ => tries m body
  | forLoop init _ _ body _ => triesAll m init ++ tries m body
  | forEach _ _ body _ => tries m body
  | s => tries m s

theorem orNone_pos (h : s.needsLowering m) (parts : List Stmt) :
    orNone m s parts = parts := if_pos h

theorem tries_of_loop (h : s.needsLowering m) (hloop : s.isLoop) : s.tries m = s.loopTries m := by
  cases s with
  | whileLoop | doWhile | forLoop | forEach => exact orNone_pos h _
  | _ => cases hloop

theorem tries_labeled {label : String} {loc : Location}
    (h : (Stmt.labeled label s loc).needsLowering m) :
    (Stmt.labeled label s loc).tries m = s.loopTries m := by
  cases s with
  | _ => exact orNone_pos h _

theorem loopTries_of_not_loop (h : s.isLoop = false) : s.loopTries m = s.tries m := by
  cases s with
  | whileLoop | doWhile | forLoop | forEach => cases h
  | _ => rfl

/-- What is kept has no try that gets a guard. -/
theorem tries_of_plain (h : s.needsLowering m = false) : s.tries m = [] := by
  have hnone : ∀ parts, orNone m s parts = [] :=
    fun _ => if_neg (by rw [h]; exact Bool.false_ne_true)
  cases s with
  | labeled label body =>
    cases body with
    | _ => exact hnone _
  | empty | expr | declare | ret | brk | cont | raise => rfl
  | _ => exact hnone _

/-- The variables of the resources of a try. -/
def resourceNames : Stmt → List SymbolId
  | tryCatch rs _ _ _ _ => rs.flatMap fun d => d.name.symbol.toList
  | _ => []

/-- The variables of the resources in statements that get a guard. -/
def resourcesAll (m : Markers) (ss : List Stmt) : List SymbolId :=
  (triesAll m ss).flatMap resourceNames

end Stmt

namespace Lowering

open Ledger Code

namespace Phrase

/-- The variables that the code of a phrase stores to, the resources of guards apart. -/
def stores (m : Markers) : Phrase → List SymbolId
  | stmt s => s.stores m
  | stmts ss => Stmt.storesAll m ss
  | scope p => p.stores m
  | branch s => Stmt.storesElse m s
  | head _ s => s.loopStores m
  | counting _ init test update _ body =>
    Stmt.storesAll m init ++ writesOf? test ++ writesOf update ++ body.stores m
  | each _ var iterable _ body => var.name.symbol.toList ++ iterable.writes ++ body.stores m
  | loop shape _ body => writesOf? shape.test ++ writesOf shape.update ++ body.stores m
  | choice selector cs => selector.writes ++ Stmt.storesCases m cs
  | cases _ cs => Stmt.storesCases m (cs.map Prod.fst)
  | opening resources body => resources.flatMap (fun r => writesOf? r.2) ++ Stmt.storesAll m body
  | handler param _ body => param :: Stmt.storesAll m body
  | handlers cs _ => Stmt.storesCatches m cs
  | guarded resources body cs _ =>
    resources.flatMap (fun r => writesOf? r.2) ++ Stmt.storesAll m body ++ Stmt.storesCatches m cs
  | final body => Stmt.storesFinal m body

/-- The tries in a phrase that get a guard, apart from the one that it is inside. -/
def tries (m : Markers) : Phrase → List Stmt
  | stmt s => s.tries m
  | stmts ss => Stmt.triesAll m ss
  | scope p => p.tries m
  | branch s => Stmt.triesElse m s
  | head _ s => s.loopTries m
  | counting _ init _ _ _ body => Stmt.triesAll m init ++ body.tries m
  | each _ _ _ _ body => body.tries m
  | loop _ _ body => body.tries m
  | choice _ cs => Stmt.triesCases m cs
  | cases _ cs => Stmt.triesCases m (cs.map Prod.fst)
  | opening _ body => Stmt.triesAll m body
  | handler _ _ body => Stmt.triesAll m body
  | handlers cs _ => Stmt.triesCatches m cs
  | guarded _ body cs _ => Stmt.triesAll m body ++ Stmt.triesCatches m cs
  | final body => Stmt.triesFinal m body

end Phrase

end Lowering

end Resumable

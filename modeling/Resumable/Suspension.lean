import Resumable.Tree.Stmt

/-!
# Statements that can be left

A statement is plain if nothing inside it can leave the state that it stands in: no marker, no
return, and no jump whose target lies outside the statement. Plain statements are kept as they
are; all others have to be lowered.

* an unlabelled break stays inside if a loop or switch encloses it, an unlabelled continue if a
  loop does, a labelled jump if its label does;
* labels of cases are not looked at.
-/

namespace Resumable

/-- What encloses a statement inside the one that is looked at. -/
structure Enclosure where
  /-- whether a loop does -/
  inLoop : Bool := false
  /-- whether a switch does -/
  inSwitch : Bool := false
  /-- the labels that do -/
  labels : List String := []

namespace Stmt

/-- Whether the first value of a declaration holds a marker. -/
def initHasMarker (m : Markers) (d : LocalDecl) : Bool :=
  d.init.any fun e => (e.findMarker? m).isSome

mutual

/-- Whether something inside the statement leaves what encloses it. -/
def leaves (m : Markers) (within : Enclosure) : Stmt → Bool
  | empty _ => false
  | expr e _ => (e.findMarker? m).isSome
  | raise e _ => (e.findMarker? m).isSome
  | declare d _ => initHasMarker m d
  | block body _ => leavesAny m within body
  | cond test yes no _ =>
    (test.findMarker? m).isSome || leaves m within yes || leavesElse m within no
  | whileLoop test body _ =>
    (test.findMarker? m).isSome || leaves m { within with inLoop := true } body
  | doWhile body test _ =>
    (test.findMarker? m).isSome || leaves m { within with inLoop := true } body
  | forLoop init test update body _ =>
    leavesAny m within init || test.any (fun e => (e.findMarker? m).isSome)
      || update.any (fun e => (e.findMarker? m).isSome)
      || leaves m { within with inLoop := true } body
  | forEach _ iterable body _ =>
    (iterable.findMarker? m).isSome || leaves m { within with inLoop := true } body
  | switch selector cases _ =>
    (selector.findMarker? m).isSome || leavesCases m { within with inSwitch := true } cases
  | tryCatch resources body catches final _ =>
    resources.any (initHasMarker m) || leavesAny m within body || leavesCatches m within catches
      || leavesFinal m within final
  | labeled label body _ => leaves m { within with labels := label :: within.labels } body
  | synchronized lock body _ => (lock.findMarker? m).isSome || leavesAny m within body
  | ret _ _ => true
  | brk none _ => !within.inLoop && !within.inSwitch
  | cont none _ => !within.inLoop
  | brk (some label) _ => !within.labels.contains label
  | cont (some label) _ => !within.labels.contains label

/-- Whether something inside one of the statements leaves what encloses them. -/
def leavesAny (m : Markers) (within : Enclosure) : List Stmt → Bool
  | [] => false
  | s :: ss => leaves m within s || leavesAny m within ss

/-- Whether something inside a branch that may be missing leaves what encloses it. -/
def leavesElse (m : Markers) (within : Enclosure) : Option Stmt → Bool
  | none => false
  | some s => leaves m within s

/-- Whether something inside final code that may be missing leaves what encloses it. -/
def leavesFinal (m : Markers) (within : Enclosure) : Option (List Stmt) → Bool
  | none => false
  | some body => leavesAny m within body

/-- Whether something inside a case leaves what encloses it. -/
def leavesCase (m : Markers) (within : Enclosure) : SwitchCase → Bool
  | .mk _ _ body => leavesAny m within body

/-- Whether something inside one of the cases leaves what encloses them. -/
def leavesCases (m : Markers) (within : Enclosure) : List SwitchCase → Bool
  | [] => false
  | c :: cs => leavesCase m within c || leavesCases m within cs

/-- Whether something inside a handler leaves what encloses it. -/
def leavesCatch (m : Markers) (within : Enclosure) : CatchClause → Bool
  | .mk _ _ body => leavesAny m within body

/-- Whether something inside one of the handlers leaves what encloses them. -/
def leavesCatches (m : Markers) (within : Enclosure) : List CatchClause → Bool
  | [] => false
  | c :: cs => leavesCatch m within c || leavesCatches m within cs

end

/-- Whether a statement has to be lowered. -/
def needsLowering (m : Markers) (s : Stmt) : Bool := leaves m {} s

/-- The first marker in the expressions of a statement itself, without the statements in it. -/
def ownMarker? (m : Markers) : Stmt → Option String
  | expr e _ | raise e _ | ret (some e) _ => e.findMarker? m
  | declare d _ => d.init.bind (Expr.findMarker? m)
  | cond test _ _ _ | whileLoop test _ _ | doWhile _ test _ => test.findMarker? m
  | forLoop _ test update _ _ => (test.toList ++ update).findSome? (Expr.findMarker? m)
  | forEach _ iterable _ _ => iterable.findMarker? m
  | switch selector _ _ => selector.findMarker? m
  | synchronized lock _ _ => lock.findMarker? m
  | tryCatch resources _ _ _ _ => resources.findSome? fun d => d.init.bind (Expr.findMarker? m)
  | _ => none

/-- The marker of the statement itself, with its place, or else the given one from inside it. -/
def ownMarkerOr (m : Markers) (s : Stmt) (inner : Option (String × Location)) :
    Option (String × Location) :=
  ((ownMarker? m s).map fun name => (name, s.location)).or inner

mutual

/-- The first marker in the statements inside a statement, with the place of the one that
holds it. -/
def innerMarker? (m : Markers) : Stmt → Option (String × Location)
  | block body _ => firstMarkerIn? m body
  | cond _ yes no _ => (ownMarkerOr m yes (innerMarker? m yes)).or (firstMarkerElse? m no)
  | whileLoop _ body _ => ownMarkerOr m body (innerMarker? m body)
  | doWhile body _ _ => ownMarkerOr m body (innerMarker? m body)
  | forEach _ _ body _ => ownMarkerOr m body (innerMarker? m body)
  | labeled _ body _ => ownMarkerOr m body (innerMarker? m body)
  | forLoop init _ _ body _ => (firstMarkerIn? m init).or (ownMarkerOr m body (innerMarker? m body))
  | switch _ cases _ => firstMarkerCases? m cases
  | tryCatch _ body catches final _ =>
    (firstMarkerIn? m body).or ((firstMarkerCatches? m catches).or (firstMarkerFinal? m final))
  | synchronized _ body _ => firstMarkerIn? m body
  | _ => none

/-- The first marker inside statements. -/
def firstMarkerIn? (m : Markers) : List Stmt → Option (String × Location)
  | [] => none
  | s :: ss => (ownMarkerOr m s (innerMarker? m s)).or (firstMarkerIn? m ss)

/-- The first marker inside a branch that may be missing. -/
def firstMarkerElse? (m : Markers) : Option Stmt → Option (String × Location)
  | none => none
  | some s => ownMarkerOr m s (innerMarker? m s)

/-- The first marker inside final code that may be missing. -/
def firstMarkerFinal? (m : Markers) : Option (List Stmt) → Option (String × Location)
  | none => none
  | some body => firstMarkerIn? m body

/-- The first marker inside a case. -/
def firstMarkerCase? (m : Markers) : SwitchCase → Option (String × Location)
  | .mk _ _ body => firstMarkerIn? m body

/-- The first marker inside cases. -/
def firstMarkerCases? (m : Markers) : List SwitchCase → Option (String × Location)
  | [] => none
  | c :: cs => (firstMarkerCase? m c).or (firstMarkerCases? m cs)

/-- The first marker inside a handler. -/
def firstMarkerCatch? (m : Markers) : CatchClause → Option (String × Location)
  | .mk _ _ body => firstMarkerIn? m body

/-- The first marker inside handlers. -/
def firstMarkerCatches? (m : Markers) : List CatchClause → Option (String × Location)
  | [] => none
  | c :: cs => (firstMarkerCatch? m c).or (firstMarkerCatches? m cs)

end

/-- The first marker inside a statement, with the place of the statement that holds it. -/
def firstMarker? (m : Markers) (s : Stmt) : Option (String × Location) :=
  ownMarkerOr m s (innerMarker? m s)

end Stmt

end Resumable

import Resumable.Proofs.Unresolved

/-!
# Statements and what stands around them

* `Stmt.children` are the statements directly inside a statement, and `Stmt.exprs` its own
  expressions;
* `Lies body path s`: the statement `s` stands somewhere in `body`, and `path` are the statements
  around it; `Stmt.places` lists all of them;
* nothing of this depends on what names denote: `Lies.unresolved` and `Lies.of_unresolved` go from a
  body to the same body without its symbols and back.
-/

namespace Resumable

open List

namespace Stmt

/-- The statements directly inside a statement. -/
def children : Stmt → List Stmt
  | block body _ => body
  | cond _ yes no _ => yes :: no.toList
  | whileLoop _ body _ | doWhile body _ _ | forEach _ _ body _ | labeled _ body _ => [body]
  | forLoop init _ _ body _ => init ++ [body]
  | switch _ cases _ => cases.flatMap SwitchCase.body
  | tryCatch _ body catches final _ => body ++ catches.flatMap CatchClause.body ++ final.getD []
  | synchronized _ body _ => body
  | empty _ | expr _ _ | declare _ _ | ret _ _ | brk _ _ | cont _ _ | raise _ _ => []

/-- The expressions of a statement itself, without those of the statements inside it. -/
def exprs : Stmt → List Expr
  | expr e _ | raise e _ => [e]
  | declare d _ => d.init.toList
  | cond test _ _ _ | whileLoop test _ _ | doWhile _ test _ => [test]
  | forLoop _ test update _ _ => test.toList ++ update
  | forEach var iterable _ _ => iterable :: var.init.toList
  | switch selector cases _ => selector :: cases.flatMap SwitchCase.labels
  | tryCatch resources _ _ _ _ => resources.flatMap fun d => d.init.toList
  | synchronized lock _ _ => [lock]
  | ret value _ => value.toList
  | empty _ | block _ _ | labeled _ _ _ | brk _ _ | cont _ _ => []

/-- Whether a statement is a switch. -/
def isSwitch : Stmt → Bool
  | switch .. => true
  | _ => false

/-- Whether a statement holds code under a lock. -/
def isLock : Stmt → Bool
  | synchronized .. => true
  | _ => false

/-- The label that a statement carries. -/
def label? : Stmt → Option String
  | labeled label _ _ => some label
  | _ => none

/-- The label that a statement carries, if what carries it is a loop. -/
def loopLabel? : Stmt → Option String
  | labeled label body _ => if body.isLoop then some label else none
  | _ => none

/-- Whether a statement only declares a variable or evaluates an expression. -/
def isSimple : Stmt → Bool
  | declare .. | expr .. => true
  | _ => false

/-- The head of a loop is as the grammar has it: that of a counting loop starts with declarations
and expressions only, and the variable of a loop over an iterable has no first value. -/
def HeadFits : Stmt → Prop
  | forLoop init _ _ _ _ => ∀ s ∈ init, s.isSimple
  | forEach var _ _ _ => var.init = none
  | _ => True

@[simp] theorem label?_labeled (label : String) (s : Stmt) (loc : Location) :
    (labeled label s loc).label? = some label := rfl

@[simp] theorem isLoop_labeled (label : String) (s : Stmt) (loc : Location) :
    (labeled label s loc).isLoop = false := rfl

@[simp] theorem isSwitch_labeled (label : String) (s : Stmt) (loc : Location) :
    (labeled label s loc).isSwitch = false := rfl

theorem loopLabel?_labeled (label : String) (s : Stmt) (loc : Location) :
    (labeled label s loc).loopLabel? = if s.isLoop then some label else none := rfl

theorem label?_of_loopLabel? {s : Stmt} {label : String} (h : s.loopLabel? = some label) :
    s.label? = some label := by
  cases s with
  | labeled =>
    rw [loopLabel?] at h
    split at h
    · exact h
    · cases h
  | _ => cases h

end Stmt

/-- The statement stands in the body at any depth, and the path are the statements around it, the
innermost one first. -/
inductive Lies (body : List Stmt) : List Stmt → Stmt → Prop where
  /-- one of the statements of the body -/
  | top {s} (hs : s ∈ body) : Lies body [] s
  /-- a statement directly inside one that stands in the body -/
  | inner {path t s} (ht : Lies body path t) (hs : s ∈ t.children) : Lies body (t :: path) s

namespace Lies

variable {body : List Stmt} {path : List Stmt} {s t : Stmt}

/-- What stands in a statement of the body stands in the body. -/
theorem within (ht : Lies body path t) {inner : List Stmt} (hs : Lies t.children inner s) :
    Lies body (inner ++ t :: path) s := by
  induction hs with
  | top hs => exact .inner ht hs
  | inner _ hs ih => exact .inner ih hs

/-- What stands in a part of a body stands in the body. -/
theorem mono {body' : List Stmt} (h : Lies body path s) (hsub : ∀ t ∈ body, t ∈ body') :
    Lies body' path s := by
  induction h with
  | top hs => exact .top (hsub _ hs)
  | inner _ hs ih => exact .inner ih hs

/-- The outermost statement around the one that is looked at, or this one itself. -/
theorem head (h : Lies body path s) :
    (path = [] ∧ s ∈ body) ∨ ∃ t ∈ body, ∃ inner, path = inner ++ [t] ∧
      Lies t.children inner s := by
  induction h with
  | top hs => exact .inl ⟨rfl, hs⟩
  | @inner path t s ht hs ih =>
    right
    rcases ih with ⟨rfl, hbody⟩ | ⟨u, hu, inner, rfl, hlies⟩
    · exact ⟨t, hbody, [], rfl, .top hs⟩
    · exact ⟨u, hu, t :: inner, rfl, .inner hlies hs⟩

/-- What lies below a statement lies in its body. -/
theorem inside (hs : Lies body path s) {inner : List Stmt} (ht : Lies [s] inner t) :
    ∃ path', Lies body path' t := by
  rcases ht.head with ⟨-, hmem⟩ | ⟨u, hu, inner, -, hlies⟩
  · exact ⟨path, mem_singleton.mp hmem ▸ hs⟩
  · cases mem_singleton.mp hu
    exact ⟨_, hs.within hlies⟩

end Lies

/-! ## Induction -/

namespace Stmt

mutual

/-- The number of statements in a statement, with itself. -/
def size : Stmt → Nat
  | block body _ | synchronized _ body _ => sizeAll body + 1
  | cond _ yes no _ => size yes + sizeElse no + 1
  | whileLoop _ body _ | doWhile body _ _ | forEach _ _ body _ | labeled _ body _ => size body + 1
  | forLoop init _ _ body _ => sizeAll init + size body + 1
  | switch _ cases _ => sizeCases cases + 1
  | tryCatch _ body catches final _ => sizeAll body + sizeCatches catches + sizeFinal final + 1
  | empty _ | expr _ _ | declare _ _ | ret _ _ | brk _ _ | cont _ _ | raise _ _ => 1

/-- The number of statements in statements. -/
def sizeAll : List Stmt → Nat
  | [] => 0
  | s :: ss => size s + sizeAll ss

def sizeElse : Option Stmt → Nat
  | none => 0
  | some s => size s

def sizeFinal : Option (List Stmt) → Nat
  | none => 0
  | some body => sizeAll body

def sizeCases : List SwitchCase → Nat
  | [] => 0
  | .mk _ _ body :: cs => sizeAll body + sizeCases cs

def sizeCatches : List CatchClause → Nat
  | [] => 0
  | .mk _ _ body :: cs => sizeAll body + sizeCatches cs

end

theorem sizeAll_append (ss ts : List Stmt) : sizeAll (ss ++ ts) = sizeAll ss + sizeAll ts := by
  induction ss with
  | nil => exact (Nat.zero_add _).symm
  | cons s ss ih => rw [cons_append, sizeAll, sizeAll, ih, Nat.add_assoc]

theorem sizeCases_eq (cs : List SwitchCase) :
    sizeCases cs = sizeAll (cs.flatMap SwitchCase.body) := by
  induction cs with
  | nil => rfl
  | cons c cs ih =>
    obtain ⟨labels, isDefault, body⟩ := c
    rw [sizeCases, ih, flatMap_cons, sizeAll_append, SwitchCase.body]

theorem sizeCatches_eq (cs : List CatchClause) :
    sizeCatches cs = sizeAll (cs.flatMap CatchClause.body) := by
  induction cs with
  | nil => rfl
  | cons c cs ih =>
    obtain ⟨param, types, body⟩ := c
    rw [sizeCatches, ih, flatMap_cons, sizeAll_append, CatchClause.body]

/-- A statement has one more than the statements directly inside it. -/
theorem size_eq (s : Stmt) : s.size = sizeAll s.children + 1 := by
  cases s with
  | cond test yes no => cases no <;> rfl
  | forLoop => rw [children, sizeAll_append, size]; rfl
  | switch => rw [children, ← sizeCases_eq, size]
  | tryCatch resources body catches final =>
    rw [children, sizeAll_append, sizeAll_append, ← sizeCatches_eq, size]
    cases final <;> rfl
  | _ => rfl

theorem size_le_sizeAll {s : Stmt} {ss : List Stmt} (h : s ∈ ss) : s.size ≤ sizeAll ss := by
  obtain ⟨before, after, rfl⟩ := append_of_mem h
  rw [sizeAll_append, sizeAll]
  omega

theorem size_of_mem_children {s t : Stmt} (h : t ∈ s.children) : t.size < s.size := by
  rw [s.size_eq]
  exact Nat.lt_succ_of_le (size_le_sizeAll h)

/-- What stands in a statement is smaller. -/
theorem size_of_lies {s t : Stmt} {path : List Stmt} (h : Lies s.children path t) :
    t.size < s.size := by
  induction h with
  | top hs => exact size_of_mem_children hs
  | inner _ hs ih => exact Nat.lt_trans (size_of_mem_children hs) ih

/-- What holds of a statement if it holds of all statements inside it holds of every statement. -/
theorem induct {P : Stmt → Prop} (step : ∀ s, (∀ path t, Lies s.children path t → P t) → P s)
    (s : Stmt) : P s :=
  step s fun _ t _ => induct step t
termination_by s.size
decreasing_by exact size_of_lies ‹_›

end Stmt

/-! ## All places -/

namespace Stmt

/-- The statements down to `depth` levels, each with the statements around it: those between and
`path`. -/
def placesTo (path : List Stmt) : (depth : Nat) → List Stmt → List (List Stmt × Stmt)
  | 0, _ => []
  | depth + 1, ss => ss.flatMap fun s => (path, s) :: placesTo (s :: path) depth s.children

/-- All statements in a body, each with the statements around it. -/
def places (body : List Stmt) : List (List Stmt × Stmt) := placesTo [] (sizeAll body) body

/-- Levels enough for every statement reach all places. -/
theorem mem_placesTo {depth : Nat} {path ss : List Stmt} {r : List Stmt × Stmt}
    (hss : ∀ s ∈ ss, s.size ≤ depth) :
    r ∈ placesTo path depth ss ↔ ∃ inner, r.1 = inner ++ path ∧ Lies ss inner r.2 := by
  induction depth generalizing path ss with
  | zero =>
    have hnil : ss = [] :=
      eq_nil_iff_forall_not_mem.mpr fun s hs => Nat.not_succ_le_zero _ (s.size_eq ▸ hss s hs)
    subst hnil
    -- no statement has size zero, so there is none
    refine ⟨nofun, fun ⟨_, _, h⟩ => ?_⟩
    rcases h.head with ⟨_, hs⟩ | ⟨_, ht, _⟩ <;> contradiction
  | succ depth ih =>
    have hchildren : ∀ s ∈ ss, ∀ t ∈ s.children, t.size ≤ depth := fun s hs t ht =>
      Nat.le_of_lt_succ (Nat.lt_of_lt_of_le (size_of_mem_children ht) (hss s hs))
    simp only [placesTo, mem_flatMap, mem_cons]
    constructor
    · rintro ⟨s, hs, rfl | hr⟩
      · exact ⟨[], rfl, .top hs⟩
      · obtain ⟨inner, hpath, hlies⟩ := (ih (hchildren s hs)).mp hr
        exact ⟨inner ++ [s], by simp [hpath], (Lies.top hs).within hlies⟩
    · rintro ⟨inner, hpath, h⟩
      rcases h.head with ⟨rfl, hs⟩ | ⟨s, hs, inner, rfl, hlies⟩
      · exact ⟨r.2, hs, .inl (Prod.ext hpath rfl)⟩
      · exact ⟨s, hs, .inr ((ih (hchildren s hs)).mpr ⟨inner, by simp [hpath], hlies⟩)⟩

end Stmt

/-- The places that are listed are those where statements stand. -/
theorem lies_iff_mem_places {body path : List Stmt} {s : Stmt} :
    Lies body path s ↔ (path, s) ∈ Stmt.places body := by
  rw [Stmt.places, Stmt.mem_placesTo fun s hs => Stmt.size_le_sizeAll hs]
  simp

/-- What holds at all places of a body can be checked. -/
theorem forall_lies_iff {body : List Stmt} {P : List Stmt → Stmt → Prop} :
    (∀ path s, Lies body path s → P path s) ↔ ∀ r ∈ Stmt.places body, P r.1 r.2 :=
  ⟨fun h r hr => h r.1 r.2 (lies_iff_mem_places.mpr hr),
    fun h path s hs => h (path, s) (lies_iff_mem_places.mp hs)⟩

/-! ## Without symbols -/

namespace Expr

/-- Whether a call is a marker depends on its name and the number of its arguments only. -/
theorem asMarker?_unresolved (m : Markers) (e : Expr) :
    e.unresolved.asMarker? m = (e.asMarker? m).map fun (kind, arg) => (kind, arg.unresolved) := by
  cases e with
  | call callee args =>
    match args with
    | [] => rfl
    | [arg] =>
      simp only [unresolved, unresolvedAll, asMarker?]
      split
      · rfl
      · split <;> rfl
    | _ :: _ :: _ => rfl
  | _ => rfl

mutual

@[simp] theorem findMarker?_unresolved (m : Markers) (e : Expr) :
    e.unresolved.findMarker? m = e.findMarker? m := by
  cases e with
  | literal | ident | increment => rfl
  | unary op e
  | assign x op e => rw [unresolved, findMarker?, findMarker?, findMarker?_unresolved m e]
  | binary op a b =>
    rw [unresolved, findMarker?, findMarker?, findMarker?_unresolved m a,
      findMarker?_unresolved m b]
  | call callee args =>
    have hmarker := asMarker?_unresolved m (call callee args)
    rw [unresolved] at hmarker ⊢
    rw [findMarker?, findMarker?, hmarker, findMarkerIn?_unresolved m args]
    cases asMarker? m (call callee args) <;> rfl
  | method e name args =>
    rw [unresolved, findMarker?, findMarker?, findMarker?_unresolved m e,
      findMarkerIn?_unresolved m args]

theorem findMarkerIn?_unresolved (m : Markers) (es : List Expr) :
    findMarkerIn? m (unresolvedAll es) = findMarkerIn? m es := by
  cases es with
  | nil => rfl
  | cons e es =>
    rw [unresolvedAll, findMarkerIn?, findMarkerIn?, findMarker?_unresolved m e,
      findMarkerIn?_unresolved m es]

end

theorem unresolvedAll_eq_map (es : List Expr) : unresolvedAll es = es.map unresolved := by
  induction es with
  | nil => rfl
  | cons e es ih => rw [unresolvedAll, ih, map_cons]

end Expr

namespace Stmt

theorem unresolvedAll_eq_map (ss : List Stmt) : unresolvedAll ss = ss.map unresolved := by
  induction ss with
  | nil => rfl
  | cons s ss ih => rw [unresolvedAll, ih, map_cons]

theorem bodies_unresolvedCases (cs : List SwitchCase) :
    (unresolvedCases cs).flatMap SwitchCase.body = (cs.flatMap SwitchCase.body).map unresolved := by
  induction cs with
  | nil => rfl
  | cons c cs ih =>
    obtain ⟨labels, isDefault, body⟩ := c
    simp only [unresolvedCases, flatMap_cons, ih, map_append, SwitchCase.body, unresolvedAll_eq_map]

theorem labels_unresolvedCases (cs : List SwitchCase) :
    (unresolvedCases cs).flatMap SwitchCase.labels =
    (cs.flatMap SwitchCase.labels).map Expr.unresolved := by
  induction cs with
  | nil => rfl
  | cons c cs ih =>
    obtain ⟨labels, isDefault, body⟩ := c
    simp only [unresolvedCases, flatMap_cons, ih, map_append, SwitchCase.labels,
      Expr.unresolvedAll_eq_map]

theorem bodies_unresolvedCatches (cs : List CatchClause) :
    (unresolvedCatches cs).flatMap CatchClause.body =
    (cs.flatMap CatchClause.body).map unresolved := by
  induction cs with
  | nil => rfl
  | cons c cs ih =>
    obtain ⟨param, types, body⟩ := c
    simp only [unresolvedCatches, flatMap_cons, ih, map_append, CatchClause.body,
      unresolvedAll_eq_map]

/-- Symbols do not matter for what stands in what. -/
theorem children_unresolved (s : Stmt) : s.unresolved.children = s.children.map unresolved := by
  cases s with
  | block body | synchronized lock body => exact unresolvedAll_eq_map body
  | cond test yes no => cases no <;> rfl
  | forLoop => simp only [unresolved, children, unresolvedAll_eq_map, map_append, map_cons, map_nil]
  | switch selector cases => exact bodies_unresolvedCases cases
  | tryCatch resources body catches final =>
    simp only [unresolved, children, unresolvedAll_eq_map, bodies_unresolvedCatches, map_append]
    cases final with
    | none => rfl
    | some => simp only [unresolvedFinal, Option.getD_some, unresolvedAll_eq_map]
  | _ => rfl

/-- The expressions of a statement lose their symbols with it. -/
theorem exprs_unresolved (s : Stmt) : s.unresolved.exprs = s.exprs.map Expr.unresolved := by
  cases s with
  | declare => simp only [unresolved, exprs, LocalDecl.unresolved, Option.toList_map]
  | forLoop =>
    simp only [unresolved, exprs, Expr.unresolvedAll_eq_map, map_append, Option.toList_map]
  | forEach => simp only [unresolved, exprs, LocalDecl.unresolved, map_cons, Option.toList_map]
  | switch => simp only [unresolved, exprs, labels_unresolvedCases, map_cons]
  | tryCatch =>
    simp only [unresolved, exprs, flatMap_map, map_flatMap, LocalDecl.unresolved, Option.toList_map]
  | ret => simp only [unresolved, exprs, Option.toList_map]
  | _ => rfl

@[simp] theorem location_unresolved (s : Stmt) : s.unresolved.location = s.location := by
  cases s <;> rfl

@[simp] theorem isLoop_unresolved (s : Stmt) : s.unresolved.isLoop = s.isLoop := by
  cases s <;> rfl

@[simp] theorem isSwitch_unresolved (s : Stmt) : s.unresolved.isSwitch = s.isSwitch := by
  cases s <;> rfl

@[simp] theorem isLock_unresolved (s : Stmt) : s.unresolved.isLock = s.isLock := by
  cases s <;> rfl

@[simp] theorem label?_unresolved (s : Stmt) : s.unresolved.label? = s.label? := by
  cases s <;> rfl

@[simp] theorem loopLabel?_unresolved (s : Stmt) : s.unresolved.loopLabel? = s.loopLabel? := by
  cases s with
  | labeled => simp only [unresolved, loopLabel?, isLoop_unresolved]
  | _ => rfl

@[simp] theorem isSimple_unresolved (s : Stmt) : s.unresolved.isSimple = s.isSimple := by
  cases s <;> rfl

/-- The grammar does not ask for symbols. -/
theorem headFits_unresolved (s : Stmt) : s.unresolved.HeadFits ↔ s.HeadFits := by
  cases s with
  | forLoop =>
    simp only [unresolved, HeadFits, unresolvedAll_eq_map, forall_mem_map, isSimple_unresolved]
  | forEach => exact Option.map_eq_none_iff
  | _ => exact Iff.rfl

theorem any_findMarker?_unresolved (m : Markers) (e : Option Expr) :
    (e.map Expr.unresolved).any (fun e => (e.findMarker? m).isSome) = e.any fun e =>
    (e.findMarker? m).isSome := by
  cases e with
  | none => rfl
  | some => simp only [Option.map_some, Option.any_some, Expr.findMarker?_unresolved]

theorem initHasMarker_unresolved (m : Markers) (d : LocalDecl) :
    initHasMarker m d.unresolved = initHasMarker m d := any_findMarker?_unresolved m d.init

mutual

/-- Which statements are left does not depend on symbols. -/
theorem leaves_unresolved (m : Markers) (w : Enclosure) (s : Stmt) :
    s.unresolved.leaves m w = s.leaves m w := by
  cases s with
  | expr | raise => simp only [unresolved, leaves, Expr.findMarker?_unresolved]
  | declare d => exact initHasMarker_unresolved m d
  | block body => exact leavesAny_unresolved m w body
  | cond test yes no =>
    simp only [unresolved, leaves, Expr.findMarker?_unresolved, leaves_unresolved m w yes,
      leavesElse_unresolved m w no]
  | whileLoop test body | doWhile body | forEach var iterable body =>
    simp only [unresolved, leaves, Expr.findMarker?_unresolved, leaves_unresolved m _ body]
  | forLoop init test update body =>
    simp only [unresolved, leaves, leavesAny_unresolved m w init, any_findMarker?_unresolved,
      leaves_unresolved m _ body, Expr.unresolvedAll_eq_map, any_map, Function.comp_def,
      Expr.findMarker?_unresolved]
  | switch selector cases =>
    simp only [unresolved, leaves, Expr.findMarker?_unresolved, leavesCases_unresolved m _ cases]
  | tryCatch resources body catches final =>
    simp only [unresolved, leaves, any_map, Function.comp_def, initHasMarker_unresolved,
      leavesAny_unresolved m w body, leavesCatches_unresolved m w catches,
      leavesFinal_unresolved m w final]
  | labeled label body => exact leaves_unresolved m _ body
  | synchronized lock body =>
    simp only [unresolved, leaves, Expr.findMarker?_unresolved, leavesAny_unresolved m w body]
  | _ => rfl

theorem leavesAny_unresolved (m : Markers) (w : Enclosure) (ss : List Stmt) :
    leavesAny m w (unresolvedAll ss) = leavesAny m w ss := by
  cases ss with
  | nil => rfl
  | cons s ss =>
    simp only [unresolvedAll, leavesAny, leaves_unresolved m w s, leavesAny_unresolved m w ss]

theorem leavesElse_unresolved (m : Markers) (w : Enclosure) (no : Option Stmt) :
    leavesElse m w (unresolvedElse no) = leavesElse m w no := by
  cases no with
  | none => rfl
  | some s => exact leaves_unresolved m w s

theorem leavesFinal_unresolved (m : Markers) (w : Enclosure) (final : Option (List Stmt)) :
    leavesFinal m w (unresolvedFinal final) = leavesFinal m w final := by
  cases final with
  | none => rfl
  | some body => exact leavesAny_unresolved m w body

theorem leavesCases_unresolved (m : Markers) (w : Enclosure) (cs : List SwitchCase) :
    leavesCases m w (unresolvedCases cs) = leavesCases m w cs := by
  cases cs with
  | nil => rfl
  | cons c cs =>
    obtain ⟨labels, isDefault, body⟩ := c
    simp only [unresolvedCases, leavesCases, leavesCase, leavesAny_unresolved m w body,
      leavesCases_unresolved m w cs]

theorem leavesCatches_unresolved (m : Markers) (w : Enclosure) (cs : List CatchClause) :
    leavesCatches m w (unresolvedCatches cs) = leavesCatches m w cs := by
  cases cs with
  | nil => rfl
  | cons c cs =>
    obtain ⟨param, types, body⟩ := c
    simp only [unresolvedCatches, leavesCatches, leavesCatch, leavesAny_unresolved m w body,
      leavesCatches_unresolved m w cs]

end

theorem needsLowering_unresolved (m : Markers) (s : Stmt) :
    s.unresolved.needsLowering m = s.needsLowering m :=
  leaves_unresolved m {} s

end Stmt

namespace Lies

variable {body : List Stmt} {path : List Stmt} {s : Stmt}

/-- A statement stands at the same place when symbols are dropped. -/
theorem unresolved (h : Lies body path s) :
    Lies (Stmt.unresolvedAll body) (path.map Stmt.unresolved) s.unresolved := by
  induction h with
  | top hs =>
    rw [Stmt.unresolvedAll_eq_map]
    exact .top (mem_map_of_mem hs)
  | inner _ hs ih =>
    refine .inner ih ?_
    rw [Stmt.children_unresolved]
    exact mem_map_of_mem hs

/-- What stands in a body without symbols is what stands in the body. -/
theorem of_unresolved (h : Lies (Stmt.unresolvedAll body) path s) :
    ∃ path' s', Lies body path' s' ∧ path = path'.map Stmt.unresolved ∧ s = s'.unresolved := by
  induction h with
  | top hs =>
    rw [Stmt.unresolvedAll_eq_map] at hs
    obtain ⟨s', hs', rfl⟩ := mem_map.mp hs
    exact ⟨[], s', .top hs', rfl, rfl⟩
  | inner _ hs ih =>
    obtain ⟨path', t', ht', rfl, rfl⟩ := ih
    rw [Stmt.children_unresolved] at hs
    obtain ⟨s', hs', rfl⟩ := mem_map.mp hs
    exact ⟨t' :: path', s', .inner ht' hs', rfl, rfl⟩

/-- What stands in a procedure whose uses are resolved stands in the procedure, but for its symbols.
-/
theorem of_resolve {p : Procedure} (h : Lies p.resolve.1.body path s) :
    ∃ path' s', Lies p.body path' s' ∧ path.map Stmt.unresolved = path'.map Stmt.unresolved ∧
      s.unresolved = s'.unresolved := by
  have hbody : Stmt.unresolvedAll p.resolve.1.body = Stmt.unresolvedAll p.body :=
    congrArg Procedure.body p.unresolved_resolve
  exact (hbody ▸ h.unresolved).of_unresolved

/-- What stands in a procedure stands there when its uses are resolved, but for its symbols. -/
theorem resolve {p : Procedure} (h : Lies p.body path s) :
    ∃ path' s', Lies p.resolve.1.body path' s' ∧
      path.map Stmt.unresolved = path'.map Stmt.unresolved ∧
      s.unresolved = s'.unresolved := by
  have hbody : Stmt.unresolvedAll p.body = Stmt.unresolvedAll p.resolve.1.body :=
    congrArg Procedure.body p.unresolved_resolve.symm
  exact (hbody ▸ h.unresolved).of_unresolved

end Lies

end Resumable

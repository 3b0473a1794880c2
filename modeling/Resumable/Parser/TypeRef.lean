import Resumable.Parser.Reading
import Resumable.Tree.TypeRef

/-!
# Reading types

* `typeRef` reads a type;
* `scanType?` looks ahead over a type without reading it; it tells a declaration from an
  expression.
-/

namespace Resumable

namespace Parser

mutual

/-- A type: a name, and type arguments between angle brackets. -/
def typeRef (eof : Token) (ts : List Token) : Reading TypeRef ts.length :=
  (expectName eof "expected type name" ts).andThen fun name r lt =>
    match skip? .less r lt with
    | some ⟨r', _, lt'⟩ => (typeArgs eof r').up lt' |>.map fun args => ⟨name, args⟩
    | none => .ok ⟨name, []⟩ r lt
termination_by (ts.length, 0)

/-- One or more types and the bracket that closes them. -/
def typeArgs (eof : Token) (ts : List Token) : Reading (List TypeRef) ts.length :=
  (typeRef eof ts).andThen fun t r lt =>
    match skip? .comma r lt with
    | some ⟨r', _, lt'⟩ => (typeArgs eof r').up lt' |>.map (t :: ·)
    | none =>
      (expect eof .greater "expected '>' to close type arguments" r).up lt |>.map fun _ => [t]
termination_by (ts.length, 1)

end

mutual

/-- The tokens behind the type that comes next, if one does. -/
def scanType? (ts : List Token) : Option { r : List Token // r.length < ts.length } :=
  match ts with
  | t :: r =>
    match t.kind with
    | .identifier _ =>
      match skip? .less r (length_lt_cons t r) with
      | some ⟨r', _, lt⟩ => (scanTypeArgs? r').map fun ⟨q, lt'⟩ => ⟨q, Nat.lt_trans lt' lt⟩
      | none => some ⟨r, length_lt_cons t r⟩
    | _ => none
  | [] => none
termination_by (ts.length, 0)
decreasing_by exact .left _ _ lt

/-- The tokens behind the type arguments that come next and the bracket that closes them. -/
def scanTypeArgs? (ts : List Token) : Option { r : List Token // r.length < ts.length } :=
  match scanType? ts with
  | some ⟨r, lt⟩ =>
    match skip? .comma r lt with
    | some ⟨r', _, lt'⟩ => (scanTypeArgs? r').map fun ⟨q, lt''⟩ => ⟨q, Nat.lt_trans lt'' lt'⟩
    | none => (skip? .greater r lt).map fun ⟨q, _, lt'⟩ => ⟨q, lt'⟩
  | none => none
termination_by (ts.length, 1)

end

/-- Whether a token is an identifier. -/
def isName (k : TokenKind) : Bool :=
  match k with
  | .identifier _ => true
  | _ => false

/-- Whether a type and a name come next. -/
def atDeclaration (ts : List Token) : Bool :=
  match scanType? ts with
  | some ⟨r, _⟩ => isName (currentKind r)
  | none => false

/-- Whether a type, a name and a colon come next. -/
def atForEach (ts : List Token) : Bool :=
  match scanType? ts with
  | some ⟨r, _⟩ => isName (currentKind r) && currentKind (r.drop 1) == .colon
  | none => false

end Parser

end Resumable

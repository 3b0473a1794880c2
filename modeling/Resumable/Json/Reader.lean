import Resumable.Json.Basic
import Resumable.Text.Decimal

/-!
# Reading JSON text

* a text holds one value and, around it, nothing but blanks;
* a number has no leading zero and no bare point; a text holds no raw control character;
* an escape in a text needs its four digits, but the halves of surrogate pairs may stand alone: such
  a text can be passed over, though not read;
* each reader hands back what it left, with the fact that this is shorter than what it was given,
  which is why reading ends.
-/

namespace Resumable

namespace Json

namespace Reader

/-- What is left of `s` once at least one character has been read. -/
abbrev Shorter (s : List Char) := { r : List Char // r.length < s.length }

/-- The four characters that may stand between the parts of a value. -/
def isBlank (c : Char) : Bool :=
  c == ' ' || c == '\n' || c == '\t' || c == '\r'

/-- What follows the leading blanks. -/
def skip (s : List Char) : List Char := s.dropWhile isBlank

theorem length_skip_le (s : List Char) : (skip s).length ≤ s.length := by
  unfold skip
  exact List.Sublist.length_le (List.dropWhile_sublist _)

theorem length_lt_of_skip {s r : List Char} {c : Char} (h : skip s = c :: r) :
    r.length < s.length := by
  have hle := length_skip_le s
  rw [h] at hle
  exact hle

/-! ## Numbers -/

/-- The exponent at the head of `s`, if there is one, and what follows it; nothing if a mark of
exponent has no digits. -/
def exponent (s : List Char) : Option (List Char × List Char) :=
  match s with
  | e :: r =>
    if e == 'e' || e == 'E' then
      let (sign, r) :=
        match r with
        | '+' :: t => (['+'], t)
        | '-' :: t => (['-'], t)
        | t => ([], t)
      let ds := r.takeWhile Char.isDigit
      if ds.isEmpty then none else some (e :: sign ++ ds, r.dropWhile Char.isDigit)
    else some ([], s)
  | [] => some ([], [])

/-- The fraction at the head of `s`, if there is one, and what follows it; nothing if the point has
no digits after it. -/
def fraction (s : List Char) : Option (List Char × List Char) :=
  match s with
  | '.' :: r =>
    let ds := r.takeWhile Char.isDigit
    if ds.isEmpty then none else some ('.' :: ds, r.dropWhile Char.isDigit)
  | _ => some ([], s)

/-- A number without its sign, as digits, the rest of its spelling, and what follows. -/
def magnitude (s : List Char) : Option (List Char × List Char × List Char) := do
  let ds := s.takeWhile Char.isDigit
  if ds.isEmpty || (ds.length > 1 && ds.head? == some '0') then none
  let (f, r) ← fraction (s.dropWhile Char.isDigit)
  let (e, r) ← exponent r
  some (ds, f ++ e, r)

/-- The number that digits and the rest of a spelling denote under a sign. -/
def numberOf (negative : Bool) (ds tail : List Char) : Json :=
  let n := Text.digitsValue ds
  if tail.isEmpty && !(negative && n == 0) then .int (if negative then -n else n)
  else .real (String.ofList ((if negative then ['-'] else []) ++ ds ++ tail))

/-- The number at the head of `s`. -/
def number (s : List Char) : Option (Json × List Char) :=
  match s with
  | '-' :: r => (magnitude r).map fun (ds, t, r) => (numberOf true ds t, r)
  | r => (magnitude r).map fun (ds, t, r) => (numberOf false ds t, r)

/-! ## Texts -/

/-- The value of a hexadecimal digit. -/
def hexDigit? (c : Char) : Option Nat :=
  if c.isDigit then some (c.toNat - '0'.toNat)
  else if 'a' ≤ c && c ≤ 'f' then some (c.toNat - 'a'.toNat + 10)
  else if 'A' ≤ c && c ≤ 'F' then some (c.toNat - 'A'.toNat + 10)
  else none

/-- The value of four hexadecimal digits. -/
def hex4? (a b c d : Char) : Option Nat := do
  some (((← hexDigit? a) * 16 + (← hexDigit? b)) * 256 + (← hexDigit? c) * 16 + (← hexDigit? d))

/-- The character that a short escape stands for. -/
def escaped? : Char → Option Char
  | '"' => some '"'
  | '\\' => some '\\'
  | '/' => some '/'
  | 'b' => some '\x08'
  | 'f' => some '\x0c'
  | 'n' => some '\n'
  | 'r' => some '\r'
  | 't' => some '\t'
  | _ => none

/-- A part of a text as it is written. -/
inductive Part where
  /-- a character, or a short escape for it -/
  | char (c : Char)
  /-- an escape with four hexadecimal digits -/
  | code (n : Nat)

/-- Whether a code is the first half of a surrogate pair. -/
def isHigh (n : Nat) : Bool := 0xD800 ≤ n && n < 0xDC00

/-- Whether a code is the second half of a surrogate pair. -/
def isLow (n : Nat) : Bool := 0xDC00 ≤ n && n < 0xE000

/-- The character of a surrogate pair. -/
def ofPair (hi lo : Nat) : Char := Char.ofNat (0x10000 + (hi - 0xD800) * 0x400 + (lo - 0xDC00))

/-- The parts up to the closing quote, put in front of `acc` in reverse, and what follows. -/
def textParts (acc : List Part) : List Char → Option (List Part × List Char)
  | '"' :: r => some (acc, r)
  | '\\' :: 'u' :: a :: b :: c :: d :: r =>
    match hex4? a b c d with
    | some n => textParts (.code n :: acc) r
    | none => none
  | '\\' :: c :: r =>
    match escaped? c with
    | some x => textParts (.char x :: acc) r
    | none => none
  | c :: r => if c.toNat < 0x20 || c == '\\' then none else textParts (.char c :: acc) r
  | [] => none

/-- The characters that parts in reverse stand for, put in front of `acc`; none if half of a
surrogate pair stands without the other. -/
def charsOf? (acc : List Char) : List Part → Option (List Char)
  | [] => some acc
  | .char c :: ps => charsOf? (c :: acc) ps
  | .code lo :: .code hi :: ps =>
    if isHigh hi && isLow lo then charsOf? (ofPair hi lo :: acc) ps
    else if isHigh lo || isLow lo then none
    else charsOf? (Char.ofNat lo :: acc) (.code hi :: ps)
  | .code n :: ps => if isHigh n || isLow n then none else charsOf? (Char.ofNat n :: acc) ps

/-- A text whose opening quote has been read, if its parts stand for characters, and what follows
its closing quote. -/
def text (s : List Char) : Option (Option String × List Char) :=
  (textParts [] s).map fun (ps, r) => ((charsOf? [] ps).map String.ofList, r)

/-- The object with those members, if their names are texts. -/
def objectOf (members : List (Option String × Json)) : Json :=
  match members.mapM fun (k, j) => k.map fun k => (k, j) with
  | some members => .obj members
  | none => .unpaired

/-- Keeps `r` where it is shorter than `s`. -/
def shorter? (s r : List Char) : Option (Shorter s) :=
  if h : r.length < s.length then some ⟨r, h⟩ else none

/-! ## Values -/

mutual

/-- The value at the head of `s`, after blanks. -/
def value (s : List Char) : Option (Json × Shorter s) :=
  match h : skip s with
  | '[' :: r =>
    have hr : r.length < s.length := length_lt_of_skip h
    match hs : skip r with
    | ']' :: t => some (.arr [], ⟨t, Nat.lt_trans (length_lt_of_skip hs) hr⟩)
    | _ =>
      match items r with
      | some (js, ⟨t, ht⟩) => some (.arr js, ⟨t, Nat.lt_trans ht hr⟩)
      | none => none
  | '\x7b' :: r =>
    have hr : r.length < s.length := length_lt_of_skip h
    match hs : skip r with
    | '\x7d' :: t => some (.obj [], ⟨t, Nat.lt_trans (length_lt_of_skip hs) hr⟩)
    | _ =>
      match members r with
      | some (ms, ⟨t, ht⟩) => some (objectOf ms, ⟨t, Nat.lt_trans ht hr⟩)
      | none => none
  | '"' :: r => do
    let (t, r) ← text r
    some (t.elim .unpaired .str, ← shorter? s r)
  | 'n' :: 'u' :: 'l' :: 'l' :: r => do some (.null, ← shorter? s r)
  | 't' :: 'r' :: 'u' :: 'e' :: r => do some (.bool true, ← shorter? s r)
  | 'f' :: 'a' :: 'l' :: 's' :: 'e' :: r => do some (.bool false, ← shorter? s r)
  | r => do
    let (n, r) ← number r
    some (n, ← shorter? s r)
termination_by (s.length, 0)

/-- One or more items and the bracket that closes them. -/
def items (s : List Char) : Option (List Json × Shorter s) :=
  match value s with
  | some (j, ⟨r, hr⟩) =>
    match h : skip r with
    | ',' :: t =>
      have ht : t.length < r.length := length_lt_of_skip h
      match items t with
      | some (js, ⟨u, hu⟩) => some (j :: js, ⟨u, Nat.lt_trans hu (Nat.lt_trans ht hr)⟩)
      | none => none
    | ']' :: t => some ([j], ⟨t, Nat.lt_trans (length_lt_of_skip h) hr⟩)
    | _ => none
  | none => none
termination_by (s.length, 1)

/-- One or more members and the brace that closes them. -/
def members (s : List Char) : Option (List (Option String × Json) × Shorter s) :=
  match skip s with
  | '"' :: r =>
    match text r with
    | some (k, r) =>
      match skip r with
      | ':' :: r =>
        if hr : r.length < s.length then
          match value r with
          | some (j, ⟨r', hr'⟩) =>
            match h : skip r' with
            | ',' :: t =>
              have ht : t.length < s.length :=
                Nat.lt_trans (length_lt_of_skip h) (Nat.lt_trans hr' hr)
              match members t with
              | some (ms, ⟨u, hu⟩) => some ((k, j) :: ms, ⟨u, Nat.lt_trans hu ht⟩)
              | none => none
            | '\x7d' :: t =>
              some ([(k, j)], ⟨t, Nat.lt_trans (length_lt_of_skip h) (Nat.lt_trans hr' hr)⟩)
            | _ => none
          | none => none
        else none
      | _ => none
    | none => none
  | _ => none
termination_by (s.length, 1)

end

end Reader

/-- The value that a text holds, with nothing but blanks around it. -/
def ofText? (s : String) : Option Json :=
  match Reader.value s.toList with
  | some (j, r) => if (Reader.skip r.val).isEmpty then some j else none
  | none => none

end Json

end Resumable

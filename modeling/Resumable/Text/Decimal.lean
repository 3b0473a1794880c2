/-!
# Decimal numbers

* the value of a run of digits;
* a number with an optional sign, `+` or `-`, that fits a signed 64-bit word.
-/

namespace Resumable

namespace Text

/-- The value of a run of decimal digits, read from the left. -/
def digitsValue (ds : List Char) : Nat :=
  ds.foldl (fun n c => 10 * n + (c.toNat - '0'.toNat)) 0

/-- A number is written with its digits. -/
theorem toList_toString (n : Nat) : (toString n).toList = Nat.toDigits 10 n := by
  rw [Nat.toString_eq_repr, Nat.repr_eq_ofList_toDigits, String.toList_ofList]

theorem isDigit_of_mem {n : Nat} {c : Char} (h : c ∈ Nat.toDigits 10 n) : c.isDigit = true :=
  Nat.isDigit_of_mem_toDigits (by decide) (by decide) h

/-- The digits of a number have its value. -/
theorem digitsValue_toDigits (n : Nat) : digitsValue (Nat.toDigits 10 n) = n :=
  Nat.ofDigitChars_toDigits (by decide) (by decide)

/-- The least natural number that no signed 64-bit word holds. -/
def int64Bound : Nat := Nat.pow 2 63

/-- The least natural number that no 32-bit word holds. -/
def word32Bound : Nat := Nat.pow 2 32

/-- The number that a non-empty run of digits denotes, if it is below `bound`. -/
def natBelow? (bound : Nat) (ds : List Char) : Option Nat :=
  if ds.isEmpty || !ds.all Char.isDigit then none
  else if digitsValue ds < bound then some (digitsValue ds) else none

/-- The signed 64-bit number that a text denotes: digits after an optional sign. -/
def int64? (s : String) : Option Int64 :=
  match s.toList with
  | '-' :: ds => (natBelow? (int64Bound + 1) ds).map fun n => Int64.ofInt (-n)
  | '+' :: ds => (natBelow? int64Bound ds).map fun n => Int64.ofInt n
  | ds => (natBelow? int64Bound ds).map fun n => Int64.ofInt n

/-- The unsigned 64-bit number that a text denotes: digits after an optional `+`. -/
def word64? (s : String) : Option Nat :=
  match s.toList with
  | '+' :: ds => natBelow? (Nat.pow 2 64) ds
  | ds => natBelow? (Nat.pow 2 64) ds

end Text

end Resumable

/-!
# Reading counts

A count is written with ASCII decimal digits, one at least, after an optional
plus sign. Counts fit in sixty-four bits; a larger number is not a count.
-/

namespace Offside.Text

/-- The greatest count, all of whose sixty-four bits are set. -/
def greatestCount : Nat := 0xFFFFFFFFFFFFFFFF

/-- The value of an ASCII decimal digit. -/
def digitValue? (c : Char) : Option Nat :=
  if c.isDigit then some (c.toNat - '0'.toNat) else none

/-- The number that a run of digits continues, having begun with the given value. -/
def continueNumber? (value : Nat) : List Char → Option Nat
  | [] => some value
  | c :: rest =>
    match digitValue? c with
    | some digit => continueNumber? (10 * value + digit) rest
    | none => none

/-- The number that a non-empty run of digits denotes. -/
def readNumber? : List Char → Option Nat
  | [] => none
  | digits => continueNumber? 0 digits

/-- The digits of a count, without the sign that may stand before them. -/
def unsigned : List Char → List Char
  | '+' :: rest => rest
  | chars => chars

/-- The count that a text denotes, if it denotes one. -/
def readCount? (text : String) : Option Nat :=
  (readNumber? (unsigned text.toList)).filter (· ≤ greatestCount)

end Offside.Text

/-!
# Decimal numerals

Digits are read and written most significant first. A numeral longer than
`Numeral.maxLength` digits is neither read nor written; the two tests say so
before any conversion is tried.
-/

namespace ScopeScript.Numeral

def isDigit (c : Char) : Bool := '0' ≤ c && c ≤ '9'

def digitValue (c : Char) : Nat := c.toNat - '0'.toNat

def ofDigits (cs : List Char) : Nat :=
  cs.foldl (fun n c => 10 * n + digitValue c) 0

def digits (n : Nat) : List Char := Nat.toDigits 10 n

def maxLength : Nat := 4300

/-- Whether an integer can be written: it has at most `maxLength` digits. -/
def isWritable (i : Int) : Bool := decide (i.natAbs < Nat.pow 10 maxLength)

def ofInt (i : Int) : String :=
  if i < 0 then String.ofList ('-' :: digits i.natAbs) else String.ofList (digits i.natAbs)

/-- Reads an optional minus sign and digits. -/
def toInt? (text : String) : Option Int :=
  match text.toList with
  | '-' :: c :: cs => if (c :: cs).all isDigit then some (-(ofDigits (c :: cs) : Int)) else none
  | c :: cs => if (c :: cs).all isDigit then some (ofDigits (c :: cs)) else none
  | [] => none

end ScopeScript.Numeral

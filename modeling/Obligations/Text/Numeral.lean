/-!
# Decimal numerals

A numeral may begin with one sign. Its digits may be separated by underscores, but not begin with
one.
-/

namespace Obligations.Text

/-- The value of a digit in base ten. -/
def digit? (c : Char) : Option Nat := if c.isDigit then some (c.toNat - '0'.toNat) else none

/-- Reads digits and underscores after a number that has been read already. -/
def readDigits (acc : Nat) : List Char → Option Nat
  | [] => some acc
  | '_' :: cs => readDigits acc cs
  | c :: cs => (digit? c).bind fun d => readDigits (10 * acc + d) cs

/-- Reads a numeral without a sign: a digit, then digits and underscores. -/
def readNat? : List Char → Option Nat
  | [] => none
  | c :: cs => (digit? c).bind fun d => readDigits d cs

/-- Reads a numeral with at most one sign. -/
def readInt? : List Char → Option Int
  | '-' :: cs => (readNat? cs).map fun n => -n
  | '+' :: cs => (readNat? cs).map fun n => n
  | cs => (readNat? cs).map fun n => n

end Obligations.Text

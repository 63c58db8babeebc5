import Obligations.Settings.Token

/-!
# Numbers in settings

An integer is written in base ten, sixteen, eight or two; any other number in base ten, with a
fraction, an exponent or both. Underscores may stand between digits.

A number that is not an integer is kept exactly. Whether it is in the range of the numbers of double
precision is a comparison of naturals, which avoids a power of ten that is far out of this range.
-/

namespace Obligations.Settings

/-- The number `digits * 10 ^ exponent`. -/
structure Decimal where
  /-- The digits without the point. -/
  digits : Nat
  /-- The power of ten. -/
  exponent : Int
deriving DecidableEq, Repr

/-! ## Reading -/

/-- The digits of a numeral. An underscore may stand between two digits. -/
def digits? (base : Nat) : List Char → Option (List Nat)
  | [] => none
  | [c] => (digitOf? base c).map fun d => [d]
  | c :: '_' :: cs => (digitOf? base c).bind fun d => (digits? base cs).map (d :: ·)
  | c :: cs => (digitOf? base c).bind fun d => (digits? base cs).map (d :: ·)

/-- The number with given digits. -/
def ofDigits (base : Nat) (ds : List Nat) : Nat := ds.foldl (base * · + ·) 0

/-- The digits of a numeral in base ten. It does not begin with a zero unless it is the zero. -/
def wholeDigits? (cs : List Char) : Option (List Nat) :=
  (digits? 10 cs).bind fun ds => if ds.head? = some 0 && ds.length ≠ 1 then none else some ds

/-- What follows the sign, and whether the sign is a minus. -/
def signed : List Char → Bool × List Char
  | '-' :: cs => (true, cs)
  | '+' :: cs => (false, cs)
  | cs => (false, cs)

/-- The number, or its negation. -/
def withSign (negative : Bool) (n : Nat) : Int := if negative then -n else n

/-- An integer: in base ten with a sign if wanted, or in base sixteen, eight or two without. -/
def integer? : List Char → Option Int
  | '0' :: 'x' :: cs => (digits? 16 cs).map fun ds => ofDigits 16 ds
  | '0' :: 'o' :: cs => (digits? 8 cs).map fun ds => ofDigits 8 ds
  | '0' :: 'b' :: cs => (digits? 2 cs).map fun ds => ofDigits 2 ds
  | cs => (wholeDigits? (signed cs).2).map fun ds => withSign (signed cs).1 (ofDigits 10 ds)

/-- An exponent, with or without a sign. It may begin with zeros. -/
def exponent? (cs : List Char) : Option Int :=
  (digits? 10 (signed cs).2).map fun ds => withSign (signed cs).1 (ofDigits 10 ds)

/-- A number without a sign that may have a fraction and an exponent. -/
def Decimal.ofChars? (cs : List Char) : Option Decimal := do
  let mantissa := cs.takeWhile fun c => c ≠ 'e' && c ≠ 'E'
  let exponent ←
    match cs.drop mantissa.length with
    | [] => some 0
    | _ :: power => exponent? power
  let whole := mantissa.takeWhile (· ≠ '.')
  let ds ← wholeDigits? whole
  match mantissa.drop whole.length with
  | [] => return ⟨ofDigits 10 ds, exponent⟩
  | _ :: fraction =>
    let fs ← digits? 10 fraction
    return ⟨ofDigits 10 (ds ++ fs), exponent - fs.length⟩

/-! ## The range of double precision -/

/-- The least number that is not rounded to a finite one: it is half a step above the greatest
number of double precision. -/
def Decimal.bound : Nat := Nat.shiftLeft 0x3fffffffffffff 970

/-- Whether a number is in the range of double precision. The first test of each line settles a
number whose power of ten is large: one that is at least a power of ten above the bound, or one
below one. -/
def Decimal.isInRange (d : Decimal) : Bool :=
  match d.exponent with
  | .ofNat k => d.digits = 0 || k < 309 && d.digits * Nat.pow 10 k < bound
  | .negSucc k => d.digits.log2 < 3 * (k + 1) || d.digits < bound * Nat.pow 10 (k + 1)

end Obligations.Settings

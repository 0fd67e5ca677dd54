import Reckoner.Binary64.Nearest

/-!
# Decimal fractions

A decimal is a numerator over a power of ten. It is read from plain text (`12`, `1.5`, `5.`, `.5`),
written as such text, and rounded to the nearest binary64 number.
-/
namespace Reckoner

/-- The number `numerator / 10 ^ places`. -/
structure Decimal where
  numerator : Nat
  places : Nat
deriving DecidableEq

namespace Decimal

def denominator (d : Decimal) : Nat := Nat.pow 10 d.places

/-- Reads `digits`, `digits.`, `.digits` or `digits.digits`, and nothing else. -/
def ofText? (text : List Char) : Option Decimal :=
  let whole := text.takeWhile Char.isDigit
  match text.dropWhile Char.isDigit with
  | [] => if whole = [] then none else some ⟨Nat.ofDigitChars 10 whole 0, 0⟩
  | point :: fraction =>
    if point = '.' ∧ fraction.all Char.isDigit ∧ whole ++ fraction ≠ [] then
      some ⟨Nat.ofDigitChars 10 (whole ++ fraction) 0, fraction.length⟩
    else none

def digits (n : Nat) : List Char := Nat.toDigits 10 n

/-- The text of a decimal: digits, and a point before the last `places` of them. -/
def toText (d : Decimal) : List Char :=
  if d.places = 0 then digits d.numerator
  else
    let fraction := digits (d.numerator % d.denominator)
    digits (d.numerator / d.denominator)
      ++ '.' :: (List.replicate (d.places - fraction.length) '0' ++ fraction)

def toWord (d : Decimal) : Nat :=
  Binary64.nearestWord d.numerator d.denominator

def toFloat (d : Decimal) : Float :=
  Binary64.ofWord d.toWord

end Decimal

end Reckoner

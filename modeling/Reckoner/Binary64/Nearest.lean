import Reckoner.Binary64.View

/-!
# Rounding a quotient to the nearest binary64 number

The number nearest to a quotient of naturals is found by one rounding to a whole number of quanta,
a quantum being the gap between neighbours of that size. Words are ordered as their numbers are, so
a carry out of the fraction lands in the exponent field where it belongs.
-/
namespace Reckoner.Binary64

/-- The whole number nearest to `num / den`; a half goes to the even neighbour. -/
def roundEven (num den : Nat) : Nat :=
  let quotient := num / den
  let remainder := num % den
  if 2 * remainder < den then quotient
  else if den < 2 * remainder then quotient + 1
  else quotient + quotient % 2

/-- The word of the number nearest to `num / den` units. A quantum is `2 ^ scale` units, chosen so
that 53 bits are left; below that many bits, a quantum is one unit. Overflow gives infinity. -/
def wordOfUnits (num den : Nat) : Nat :=
  let scale := (num / den).log2 - 52
  min (scale * fractions + roundEven num (den * Nat.pow 2 scale)) infinityWord

def nearestWord (num den : Nat) : Nat :=
  wordOfUnits (num * unitsPerOne) den

def ofWord (word : Nat) : Float :=
  Float.ofBits (UInt64.ofNat word)

def signed (negative : Bool) (x : Float) : Float :=
  if negative then -x else x

theorem roundEven_mul_right (quotient den : Nat) (h : 0 < den) :
    roundEven (quotient * den) den = quotient := by
  simp [roundEven, Nat.mul_div_cancel _ h, h]

end Reckoner.Binary64

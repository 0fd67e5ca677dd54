/-!
# The value of a binary64 number

Every finite binary64 number is a whole number of units of `2⁻¹⁰⁷⁴`, the smallest positive one.
Counted in units, comparing, dividing with remainder and printing are arithmetic on naturals.
-/
namespace Reckoner.Binary64

def unitsPerOne : Nat := Nat.pow 2 1074

/-- How many fractions there are under one exponent: the field above counts in these. -/
def fractions : Nat := Nat.pow 2 52

def signBit : Nat := Nat.pow 2 63

/-- The word of infinity: the exponent field is full and the fraction is empty. -/
def infinityWord : Nat := 2047 * fractions

/-- The units of the finite number whose word, without its sign bit, is `word`. An empty exponent
field has the same scale as a field of one, but no leading bit. -/
def unitsOfWord (word : Nat) : Nat :=
  let field := word / fractions
  let fraction := word % fractions
  if field = 0 then fraction else (fractions + fraction) * Nat.pow 2 (field - 1)

/-- What a binary64 number stands for; `finite negative units` is `± units · 2⁻¹⁰⁷⁴`. -/
inductive View where
  | nan
  | infinite (negative : Bool)
  | finite (negative : Bool) (units : Nat)
deriving DecidableEq

def View.ofFields (negative : Bool) (word : Nat) : View :=
  if infinityWord < word then .nan
  else if word = infinityWord then .infinite negative
  else .finite negative (unitsOfWord word)

def view (x : Float) : View :=
  let bits := x.toBits.toNat
  .ofFields (decide (signBit ≤ bits)) (bits % signBit)

end Reckoner.Binary64

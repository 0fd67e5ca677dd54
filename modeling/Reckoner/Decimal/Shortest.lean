import Reckoner.Decimal.Basic

/-!
# The shortest decimal that reads back

A finite number is printed with the fewest digits that read back as the same number. Grids of
decimals are tried from coarse to fine; the first that holds a decimal reading back gives the
answer, for if any point of a grid reads back then so does one of the number's two neighbours on it.
-/
namespace Reckoner.Decimal

open Binary64 (unitsPerOne)

/-- The multiples of `10 ^ zeros / 10 ^ places`; one of the two exponents is zero. -/
structure Grid where
  zeros : Nat
  places : Nat
deriving DecidableEq

def Grid.point (g : Grid) (n : Nat) : Decimal := ⟨n * Nat.pow 10 g.zeros, g.places⟩

/-- The neighbour on the grid that reads back as `units`, which has the given word. Of two such
neighbours the closer one is taken, and the upper one from the middle. -/
def Grid.hit? (g : Grid) (units word : Nat) : Option Decimal :=
  let num := units * Nat.pow 10 g.places
  let den := unitsPerOne * Nat.pow 10 g.zeros
  let below := g.point (num / den)
  let above := g.point (num / den + 1)
  if below.toWord = word then
    if above.toWord = word ∧ den ≤ 2 * (num % den) then some above else some below
  else if above.toWord = word then some above
  else none

/-- The grids for a number whose whole part has `size` digits, from one that is coarser than the
number down to one that holds every finite number. -/
def grids (size : Nat) : List Grid :=
  (List.range (size + 1)).reverse.map (⟨·, 0⟩) ++ (List.range 1074).map (⟨0, · + 1⟩)

def exact (units : Nat) : Decimal := ⟨units * Nat.pow 5 1074, 1074⟩

/-- The shortest decimal that reads back as the finite number with the given units. -/
def shortest (units : Nat) : Decimal :=
  let word := Binary64.wordOfUnits units 1
  ((grids (digits (units / unitsPerOne)).length).findSome? (·.hit? units word)).getD (exact units)

end Reckoner.Decimal

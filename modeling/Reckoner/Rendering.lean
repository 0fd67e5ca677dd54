import Reckoner.Binary64.View
import Reckoner.Decimal.Shortest

/-!
# Numbers as text

The canonical text of a number is its shortest decimal that reads back, written out without an
exponent. Results are rendered for display: a whole number up to `2 ^ 53` in full, zero without a
sign, and everything else canonically with the chosen separator in place of the point.
-/
namespace Reckoner

open Binary64 (unitsPerOne view)

def signText (negative : Bool) : List Char :=
  if negative then ['-'] else []

/-- The shortest positional text that reads back; the sign of zero is kept. -/
def canonicalText (x : Float) : List Char :=
  match view x with
  | .nan => ['N', 'a', 'N']
  | .infinite negative => signText negative ++ ['i', 'n', 'f']
  | .finite negative units => signText negative ++ (Decimal.shortest units).toText

/-- Every whole number up to this one has a neighbour within one, so that it is shown in full. -/
def largestPlainInteger : Nat := Nat.pow 2 53

/-- The whole number that `units` make, if it is plain enough to be shown in full. -/
def plainInteger? (units : Nat) : Option Nat :=
  if units % unitsPerOne = 0 ∧ units / unitsPerOne ≤ largestPlainInteger then
    some (units / unitsPerOne)
  else none

def separatedText (x : Float) (separator : Char) : List Char :=
  (canonicalText x).map fun c => if c = '.' then separator else c

def renderText (x : Float) (separator : Char) : List Char :=
  match view x with
  | .finite negative units =>
    if units = 0 then ['0']
    else match plainInteger? units with
      | some n => signText negative ++ Decimal.digits n
      | none => separatedText x separator
  | _ => separatedText x separator

def render (x : Float) (separator : Char) : String :=
  String.ofList (renderText x separator)

end Reckoner

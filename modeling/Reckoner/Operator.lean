import Reckoner.Binary64.Remainder
import Reckoner.EvalError
import Reckoner.Token

/-!
# Binary operators

The six operators, how tightly they bind and what they compute.
-/
namespace Reckoner

inductive Operator where
  | add
  | sub
  | mul
  | div
  | mod
  | pow
deriving DecidableEq

/-- How tightly an operator binds. -/
inductive Tier where
  | sum
  | product
  | power
deriving DecidableEq

namespace Operator

def tier : Operator → Tier
  | add | sub => .sum
  | mul | div | mod => .product
  | pow => .power

/-- The operator that a token stands for between two operands. -/
def ofToken? : Token → Option Operator
  | .symbol .plus => some add
  | .symbol .minus => some sub
  | .symbol .star => some mul
  | .symbol .slash => some div
  | .symbol .percent => some mod
  | .symbol .caret => some pow
  | _ => none

def ofTier? (tier : Tier) (token : Token) : Option Operator :=
  (ofToken? token).filter (·.tier = tier)

/-- Applies the operator that stands at `position`. Dividing by a zero of either sign fails; every
other result, also an infinite one, is a value. -/
def apply (op : Operator) (position : Nat) (left right : Float) : Except EvalError Float :=
  match op with
  | add => .ok (left + right)
  | sub => .ok (left - right)
  | mul => .ok (left * right)
  | div => if right == 0 then .error ⟨position, .divisionByZero⟩ else .ok (left / right)
  | mod =>
    if right == 0 then .error ⟨position, .divisionByZero⟩
    else .ok (Binary64.remainder left right)
  | pow => .ok (left.pow right)

end Operator

end Reckoner

import Reckoner.Binary64.Nearest

/-!
# The truncated remainder

`remainder x y` is `x - n · y` with `n` the quotient cut toward zero. On units it is the remainder
of two naturals, hence exact, and it takes the sign of `x`.
-/
namespace Reckoner.Binary64

def nan : Float := 0 / 0

/-- What is left of `x` after taking `y` away as often as it fits; an infinite `y` never fits. -/
def remainder (x y : Float) : Float :=
  match view x, view y with
  | .finite negative a, .finite _ b =>
    if b = 0 then nan else signed negative (ofWord (wordOfUnits (a % b) 1))
  | .finite _ _, .infinite _ => x
  | _, _ => nan

end Reckoner.Binary64

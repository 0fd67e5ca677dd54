import Reckoner.Text.Quoted
import Reckoner.Text.WhiteSpace
import Reckoner.Token

/-!
# Decimal separators

The character between the whole and the fractional part of a number. It must not mean anything else
in an expression.
-/
namespace Reckoner

def isReserved (c : Char) : Bool :=
  c.isAlphanum || Text.isWhiteSpace c || (Symbol.ofChar? c).isSome

/-- A character that can separate the parts of a number. -/
structure Separator where
  char : Char
  free : isReserved char = false
deriving DecidableEq

structure SeparatorError where
  rejected : Char
deriving DecidableEq

def SeparatorError.message (e : SeparatorError) : String :=
  s!"Invalid decimal separator {Text.quoteChar e.rejected}: " ++
    "it must not be a digit, letter, whitespace or operator."

namespace Separator

/-- The separator in use unless another one is chosen. -/
def point : Separator := ⟨'.', by decide⟩

instance : Inhabited Separator := ⟨point⟩

def ofChar (c : Char) : Except SeparatorError Separator :=
  if h : isReserved c = false then .ok ⟨c, h⟩ else .error ⟨c⟩

theorem ofChar_char (s : Separator) : ofChar s.char = .ok s := by
  simp [ofChar, s.free]

end Separator

end Reckoner

import Reckoner.Rendering

/-!
# Tokens

The meaningful pieces of an expression: numbers, identifiers and eight one-character symbols.
-/
namespace Reckoner

/-- A character that is a token of its own. -/
inductive Symbol where
  | plus
  | minus
  | star
  | slash
  | percent
  | caret
  | lparen
  | rparen
deriving DecidableEq

namespace Symbol

def char : Symbol → Char
  | plus => '+'
  | minus => '-'
  | star => '*'
  | slash => '/'
  | percent => '%'
  | caret => '^'
  | lparen => '('
  | rparen => ')'

def all : List Symbol := [plus, minus, star, slash, percent, caret, lparen, rparen]

def ofChar? (c : Char) : Option Symbol := all.find? (·.char = c)

theorem ofChar?_char (s : Symbol) : ofChar? s.char = some s := by
  cases s <;> decide

theorem char_of_ofChar? {c : Char} {s : Symbol} (h : ofChar? c = some s) : s.char = c := by
  simpa using List.find?_some h

end Symbol

inductive Sign where
  | plus
  | minus
deriving DecidableEq

inductive Token where
  | number (value : Float)
  | identifier (name : String)
  | symbol (s : Symbol)
deriving DecidableEq

namespace Token

/-- How a token is named in messages. -/
def display : Token → String
  | number value => "number " ++ String.ofList (canonicalText value)
  | identifier name => "identifier '" ++ name ++ "'"
  | symbol s => String.ofList ['\x27', s.char, '\x27']

/-- The sign that a token can be. -/
def sign? : Token → Option Sign
  | symbol .plus => some .plus
  | symbol .minus => some .minus
  | _ => none

end Token

/-- A token and the byte offset at which it starts. -/
structure Located where
  token : Token
  position : Nat
deriving DecidableEq

end Reckoner

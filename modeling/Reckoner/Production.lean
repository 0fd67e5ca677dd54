import Reckoner.Input
import Reckoner.Operator

/-!
# The productions of the grammar

    expression    := term (("+" | "-") term)*
    term          := signed factor (("*" | "/" | "%") signed factor)*
    signed factor := ("+" | "-")? power
    power         := atom ("^" power)?
    atom          := NUMBER | "(" expression ")" | IDENTIFIER atom

Each production reads a value off the front of the tokens in one forward pass. What a value is, the
productions leave open: they build it through a `Meaning`. A bracket group, a function's argument
and an exponent open a level; productions call back only into a level they open, and the levels
that may still be opened are counted down, so the recursion is on that count.
-/
namespace Reckoner

/-- What the productions make of the pieces they read. -/
structure Meaning (V : Type) where
  number : Float → V
  sign : Sign → V → V
  group : V → V
  /-- The function that a name stands for at a byte offset, if it is known. -/
  call? : Nat → String → Option (V → V)
  /-- Joins two operands by the operator that stands at a byte offset. -/
  combine : Operator → Nat → V → V → Except EvalError V

/-- Reads a value off the front of the tokens and leaves the tokens behind it. -/
abbrev Reader (V : Type) := List Located → Except EvalError (V × List Located)

structure Level (V : Type) where
  expression : Reader V
  power : Reader V
  atom : Reader V

/-- How many levels may be open at once. -/
def nestingLimit : Nat := 128

namespace Meaning

variable {V : Type} (m : Meaning V) (ending : Ending) (inner : Option (Level V))

def enter (position : Nat) : Except EvalError (Level V) :=
  match inner with
  | some level => .ok level
  | none => .error ⟨position, .nestingTooDeep nestingLimit⟩

def close : List Located → Except EvalError (List Located)
  | [] => .error ending.error
  | t :: rest =>
    if t.token = .symbol .rparen then ending.advance rest
    else .error ⟨t.position, .missingBracket⟩

def atom : Reader V
  | [] => .error ending.error
  | t :: rest =>
    match t.token with
    | .number value => do
      let rest ← ending.advance rest
      return (m.number value, rest)
    | .identifier name =>
      match m.call? t.position name with
      | none => .error ⟨t.position, .unknownFunction name⟩
      | some apply => do
        let level ← enter inner t.position
        let rest ← ending.advance rest
        let (argument, rest) ← level.atom rest
        return (apply argument, rest)
    | .symbol .lparen => do
      let level ← enter inner t.position
      let rest ← ending.advance rest
      let (value, rest) ← level.expression rest
      let rest ← close ending rest
      return (m.group value, rest)
    | .symbol .rparen => .error ⟨t.position, .missingBracket⟩
    | token => .error ⟨t.position, .notANumber token.display⟩

/-- Reads an atom and its exponent, if it has one. The exponent's level opens only after its first
token has been looked at. -/
def power : Reader V := fun tokens => do
  match ← atom m ending inner tokens with
  | (base, t :: rest) =>
    if t.token = .symbol .caret then do
      let rest ← ending.advance rest
      let level ← enter inner t.position
      let (exponent, rest) ← level.power rest
      let value ← m.combine .pow t.position base exponent
      return (value, rest)
    else return (base, t :: rest)
  | (base, []) => return (base, [])

/-- Reads a power with at most one sign, which applies to the whole power. -/
def signedFactor : Reader V
  | [] => power m ending inner []
  | t :: rest =>
    match t.token.sign? with
    | some sign => do
      let rest ← ending.advance rest
      let (value, rest) ← power m ending inner rest
      return (m.sign sign value, rest)
    | none => power m ending inner (t :: rest)

/-- Joins further operands to `left` by operators of one tier, from the left. A round uses up an
operator and an operand, so the tokens themselves are clock enough. -/
def chain (tier : Tier) (operand : Reader V) : (clock : List Located) → V → Reader V
  | _ :: clock, left, t :: rest =>
    match Operator.ofTier? tier t.token with
    | some op => do
      let rest ← ending.advance rest
      let (right, rest) ← operand rest
      let value ← m.combine op t.position left right
      chain tier operand clock value rest
    | none => .ok (left, t :: rest)
  | _, left, tokens => .ok (left, tokens)

def joined (tier : Tier) (operand : Reader V) : Reader V := fun tokens => do
  let (left, rest) ← operand tokens
  chain m ending tier operand rest left rest

def term : Reader V := joined m ending .product (signedFactor m ending inner)

def expression : Reader V := joined m ending .sum (term m ending inner)

/-- The level that can be opened next, if any, when `n` more may be open at once; inside it one
fewer may. -/
def inside : Nat → Option (Level V)
  | 0 => none
  | n + 1 =>
    let inner := inside n
    some ⟨expression m ending inner, power m ending inner, atom m ending inner⟩

/-- Accepts the end of the input behind a complete expression. -/
def expectEnd : List Located → Except EvalError Unit
  | [] => .ok ()
  | t :: _ =>
    if t.token = .symbol .rparen then .error ⟨t.position, .missingBracket⟩
    else .error ⟨t.position, .trailingInput t.token.display⟩

def read (input : Input) : Except EvalError V := do
  let (value, rest) ←
    expression m input.ending (inside m input.ending nestingLimit) input.tokens
  expectEnd rest
  return value

end Meaning

end Reckoner

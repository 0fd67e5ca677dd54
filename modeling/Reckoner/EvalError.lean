import Reckoner.Text.Quoted

/-!
# Evaluation errors

An evaluation fails with one cause at one byte offset of the source.
-/
namespace Reckoner

/-- Why an evaluation failed; tokens are named as messages show them. -/
inductive Cause where
  /-- An operand was wanted and the token starts none. -/
  | notANumber (token : String)
  | endOfExpression
  /-- A closing bracket has no partner, or another token stands where one is due. -/
  | missingBracket
  | divisionByZero
  | unknownFunction (name : String)
  /-- A piece of digits and separators is no number. -/
  | malformedNumber (lexeme : String)
  | unknownCharacter (character : Char)
  /-- A complete expression is followed by another token. -/
  | trailingInput (token : String)
  | nestingTooDeep (limit : Nat)
deriving DecidableEq

def Cause.describe : Cause → String
  | notANumber token => s!"Expected a number but found {token}."
  | endOfExpression => "Unexpected end of expression."
  | missingBracket => "Missing or unmatched bracket."
  | divisionByZero => "Division by zero."
  | unknownFunction name => "Unknown function '" ++ name ++ "'."
  | malformedNumber lexeme => "Malformed number '" ++ lexeme ++ "'."
  | unknownCharacter character => s!"Unknown character {Text.quoteChar character}."
  | trailingInput token => s!"Extra input after expression: {token}."
  | nestingTooDeep limit => s!"Expression is nested deeper than {limit} levels."

/-- A failed evaluation: a cause and the byte offset at which it was met. -/
structure EvalError where
  position : Nat
  cause : Cause
deriving DecidableEq

def EvalError.message (e : EvalError) : String :=
  s!"Error at {e.position}: {e.cause.describe}"

end Reckoner

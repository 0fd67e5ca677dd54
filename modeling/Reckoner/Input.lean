import Reckoner.Lexeme

/-!
# The input of an evaluation

An evaluation sees the tokens in front of the first fault, and behind them that fault or the end of
the source. What lies behind the fault is never looked at.
-/
namespace Reckoner

/-- What stands behind the last token. -/
inductive Ending where
  | finish (position : Nat)
  /-- A lexeme that is no token. -/
  | fault (error : EvalError)
deriving DecidableEq

namespace Ending

/-- The error of an operand that is wanted here. -/
def error : Ending → EvalError
  | finish position => ⟨position, .endOfExpression⟩
  | fault e => e

/-- Moves on to the tokens that remain. Moving on to a fault fails at once. -/
def advance (ending : Ending) (rest : List Located) : Except EvalError (List Located) :=
  match rest, ending with
  | [], fault e => .error e
  | _, _ => .ok rest

@[simp] theorem advance_cons (ending : Ending) (t : Located) (rest : List Located) :
    ending.advance (t :: rest) = .ok (t :: rest) := by
  cases ending <;> rfl

@[simp] theorem advance_finish (position : Nat) (rest : List Located) :
    (finish position).advance rest = .ok rest := by
  cases rest <;> rfl

theorem advance_ok_or_fault (ending : Ending) (rest : List Located) :
    ending.advance rest = .ok rest ∨ rest = [] ∧ ∃ e, ending = .fault e := by
  cases rest with
  | cons t rest => exact .inl (advance_cons ending t rest)
  | nil =>
    cases ending with
    | finish position => exact .inl rfl
    | fault e => exact .inr ⟨rfl, e, rfl⟩

end Ending

/-- The tokens in front of the first fault, and what stands behind them. -/
structure Input where
  tokens : List Located
  ending : Ending
deriving DecidableEq

namespace Input

/-- Keeps the items up to the first fault of a source that ends at `position`. -/
def ofItems (position : Nat) : List (Except EvalError Located) → Input
  | [] => ⟨[], .finish position⟩
  | .error e :: _ => ⟨[], .fault e⟩
  | .ok t :: items =>
    let input := ofItems position items
    ⟨t :: input.tokens, input.ending⟩

def ofSource (separator : Char) (source : String) : Input :=
  ofItems (byteLength source.toList) ((lexemes separator source).map Lexeme.item)

/-- The fault that stands in front of every token, if one does. -/
def openingFault? (input : Input) : Option EvalError :=
  match input.tokens, input.ending with
  | [], .fault e => some e
  | _, _ => none

end Input

end Reckoner

import Reckoner.Evaluate

/-!
# Syntax trees

The productions can build a tree in place of a value. Evaluating the tree afterwards, operands
before operators and from left to right, is a second way to the value of a source.
-/
namespace Reckoner

/-- An expression as it is written, with the byte offsets of functions and operators. -/
inductive Expr where
  | number (value : Float)
  | signed (sign : Sign) (operand : Expr)
  | group (inside : Expr)
  | call (position : Nat) (name : String) (argument : Expr)
  | binary (op : Operator) (position : Nat) (left right : Expr)
deriving DecidableEq

namespace Expr

/-- The productions build trees; only the known names are functions. -/
def building (known : String → Bool) : Meaning Expr where
  number := number
  sign := signed
  group := group
  call? position name := if known name then some (call position name) else none
  combine op position left right := .ok (binary op position left right)

def meaning (functions : FunctionTable) : Meaning Expr := building functions.contains

def parse (source : String) (separator : Separator) (functions : FunctionTable) :
    Except EvalError Expr :=
  (meaning functions).read (.ofSource separator.char source)

def evaluate (functions : FunctionTable) : Expr → Except EvalError Float
  | number value => .ok value
  | signed sign operand => return functions.meaning.sign sign (← operand.evaluate functions)
  | group inside => inside.evaluate functions
  | call position name argument =>
    match functions.get? name with
    | some f => return f (← argument.evaluate functions)
    | none => .error ⟨position, .unknownFunction name⟩
  | binary op position left right => do
    let a ← left.evaluate functions
    let b ← right.evaluate functions
    op.apply position a b

/-- How many levels are open at once at the deepest place of a tree: a group, an argument and an
exponent open one each. -/
def levels : Expr → Nat
  | number _ => 0
  | signed _ operand => operand.levels
  | group inside => inside.levels + 1
  | call _ _ argument => argument.levels + 1
  | binary .pow _ base exponent => max base.levels (exponent.levels + 1)
  | binary _ _ left right => max left.levels right.levels

end Expr

end Reckoner

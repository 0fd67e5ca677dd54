import Reckoner.Builtin
import Reckoner.Separator

/-!
# Evaluation

A source is evaluated while it is read, in one pass and without a syntax tree.
-/
namespace Reckoner

/-- The value of a source, or the first error met in it. -/
def evaluate (source : String) (separator : Separator) (functions : FunctionTable) :
    Except EvalError Float :=
  functions.meaning.read (.ofSource separator.char source)

end Reckoner

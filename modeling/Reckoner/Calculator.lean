import Reckoner.Evaluate

/-!
# Calculators

A calculator is a separator and a table of functions; its value is all that later answers depend on.
-/
namespace Reckoner

structure Calculator where
  separator : Separator
  functions : FunctionTable

namespace Calculator

def ofSeparator (separator : Separator) : Calculator := ⟨separator, Builtin.table⟩

def evaluate (c : Calculator) (source : String) : Except EvalError Float :=
  Reckoner.evaluate source c.separator c.functions

/-- Chooses another separator; a refused one leaves the calculator as it is. -/
def setSeparator (c : Calculator) (char : Char) : Except SeparatorError Calculator :=
  (Separator.ofChar char).map fun separator => { c with separator }

def register (c : Calculator) (name : String) (f : Float → Float) : Calculator :=
  { c with functions := c.functions.register name f }

def describe (c : Calculator) : String :=
  "Calculator \x7b config: Config \x7b decimal_separator: " ++ Text.quoteChar c.separator.char ++
    " \x7d, functions: " ++ c.functions.describe ++ " \x7d"

end Calculator

end Reckoner

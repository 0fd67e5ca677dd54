import Std.Data.TreeMap.Lemmas
import Reckoner.Production
import Reckoner.Text.ByteOrder

/-!
# Function tables

The unary functions that an expression can call, each under its name. Names are matched exactly and
listed in byte order.
-/
namespace Reckoner

structure FunctionTable where
  entries : Std.TreeMap String (Float → Float) Text.byteOrder

namespace FunctionTable

def empty : FunctionTable := ⟨∅⟩

/-- Puts a function under a name, in place of the one that was there. -/
def register (t : FunctionTable) (name : String) (f : Float → Float) : FunctionTable :=
  ⟨t.entries.insert name f⟩

def get? (t : FunctionTable) (name : String) : Option (Float → Float) := t.entries[name]?

def contains (t : FunctionTable) (name : String) : Bool := (t.get? name).isSome

def names (t : FunctionTable) : List String := t.entries.keys

/-- The table with the given functions; of two of one name, the later stays. -/
def ofList (functions : List (String × (Float → Float))) : FunctionTable :=
  functions.foldl (fun t entry => t.register entry.1 entry.2) empty

theorem get?_empty (name : String) : empty.get? name = none := by
  simp [empty, get?]

theorem get?_register (t : FunctionTable) (name other : String) (f : Float → Float) :
    (t.register name f).get? other = if name = other then some f else t.get? other := by
  simp [register, get?, Std.TreeMap.getElem?_insert]

def describe (t : FunctionTable) : String :=
  "FunctionTable \x7b functions: [" ++ ", ".intercalate (t.names.map Text.quoteString) ++ "] \x7d"

/-- Evaluation: the productions build numbers and call the table's functions. -/
def meaning (t : FunctionTable) : Meaning Float where
  number value := value
  sign
    | .plus, value => value
    | .minus, value => -value
  group value := value
  call? _ name := t.get? name
  combine := Operator.apply

end FunctionTable

end Reckoner

import Reckoner.Proofs.Calculator.View

/-!
# Histories

A calculator is what it was asked to change, in order. Main statements: the last accepted separator
is in effect, and a name stands for the function that was last registered under it.
-/
namespace Reckoner

/-- What a calculator was asked to change. -/
inductive Change where
  | separator (char : Char)
  | function (name : String) (f : Float → Float)

namespace Change

/-- The separator that the change brings, unless it was refused. -/
def separator? : Change → Option Separator
  | separator char => (Separator.ofChar char).toOption
  | function _ _ => none

def function? (name : String) : Change → Option (Float → Float)
  | separator _ => none
  | function other f => if other = name then some f else none

end Change

/-- The separator that a calculator was made with and the changes asked for since, the latest
last. A copy has those of its original up to the copying. -/
structure History where
  made : Separator
  changes : List Change

namespace History

def separator (h : History) : Separator :=
  (h.changes.filterMap Change.separator?).getLast?.getD h.made

/-- The function that was last registered under a name, or else the built-in one. -/
def resolve (h : History) (name : String) : Option (Float → Float) :=
  (h.changes.filterMap (Change.function? name)).getLast?.or (Builtin.functions.lookup name)

def view (h : History) : View := ⟨h.separator, h.resolve⟩

def add (change : Change) (h : History) : History := { h with changes := h.changes ++ [change] }

theorem view_made (separator : Separator) :
    (⟨separator, []⟩ : History).view = .ofSeparator separator := rfl

theorem view_add_separator (h : History) (char : Char) :
    (h.add (.separator char)).view = h.view.choose char := by
  have hresolve : (h.add (.separator char)).resolve = h.resolve := by
    funext name
    simp [resolve, add, Change.function?]
  rw [view, hresolve, View.choose]
  cases hchar : Separator.ofChar char with
  | ok separator =>
    refine congrArg (View.mk · h.resolve) ?_
    simp [History.separator, add, Change.separator?, hchar, Except.toOption]
  | error e =>
    refine congrArg (View.mk · h.resolve) ?_
    simp [History.separator, add, Change.separator?, hchar, Except.toOption]

theorem view_add_function (h : History) (name : String) (f : Float → Float) :
    (h.add (.function name f)).view = h.view.register name f := by
  have hseparator : (h.add (.function name f)).separator = h.separator := by
    simp [separator, add, Change.separator?]
  rw [view, hseparator, View.register]
  refine congrArg (View.mk h.separator) (funext fun other => ?_)
  by_cases hname : name = other
  · simp [resolve, add, Change.function?, hname]
  · simp [resolve, add, view, Change.function?, hname]

end History

end Reckoner

import Reckoner.Input

/-!
# Sources at other places

Where a text starts is only where its lexemes are counted from. So a text that stands elsewhere is
cut into the same lexemes, each moved along, and the input that they are is the input moved along.
-/
namespace Reckoner

def Located.relocate (move : Nat → Nat) (t : Located) : Located := ⟨t.token, move t.position⟩

def EvalError.relocate (move : Nat → Nat) (e : EvalError) : EvalError := ⟨move e.position, e.cause⟩

def relocateItem (move : Nat → Nat) : Except EvalError Located → Except EvalError Located
  | .ok t => .ok (t.relocate move)
  | .error e => .error (e.relocate move)

def Ending.relocate (move : Nat → Nat) : Ending → Ending
  | finish position => finish (move position)
  | fault e => fault (e.relocate move)

namespace Lexeme

def relocate (move : Nat → Nat) (l : Lexeme) : Lexeme := { l with start := move l.start }

theorem item_relocate (move : Nat → Nat) (l : Lexeme) :
    (l.relocate move).item = relocateItem move l.item := by
  cases l with
  | mk start text content =>
    cases content with
    | ok token => rfl
    | error fault => cases fault <;> rfl

theorem items_relocate (move : Nat → Nat) (ls : List Lexeme) :
    (ls.map (relocate move)).map item = (ls.map item).map (relocateItem move) := by
  simp [item_relocate]

end Lexeme

/-- A text that starts further behind has the same lexemes further behind. -/
theorem lexemesFrom_add (separator : Char) (width start : Nat) (text : List Char) :
    lexemesFrom separator (start + width) text =
      (lexemesFrom separator start text).map (Lexeme.relocate (· + width)) := by
  fun_induction lexemesFrom separator start text with
  | case1 start => rw [lexemesFrom_nil, List.map_nil]
  | case2 start c cs hblank ih =>
    rw [lexemesFrom_blank separator _ cs hblank, ← ih, Nat.add_right_comm]
  | case3 start c cs hblank taken ih =>
    rw [lexemesFrom_scan separator _ cs (by simpa using hblank), List.map_cons, ← ih,
      Nat.add_right_comm]
    rfl

namespace Input

def relocate (move : Nat → Nat) (input : Input) : Input :=
  ⟨input.tokens.map (Located.relocate move), input.ending.relocate move⟩

theorem ofItems_relocate (move : Nat → Nat) (position : Nat)
    (items : List (Except EvalError Located)) :
    ofItems (move position) (items.map (relocateItem move)) =
      (ofItems position items).relocate move := by
  induction items with
  | nil => rfl
  | cons item items ih =>
    cases item with
    | error e => rfl
    | ok t => simp [relocateItem, ofItems, ih, relocate]

end Input

end Reckoner

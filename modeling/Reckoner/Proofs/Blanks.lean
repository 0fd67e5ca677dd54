import Reckoner.Proofs.ErrorPlaces
import Reckoner.Proofs.Grammar.Relocation
import Reckoner.Proofs.Source.Append
import Reckoner.Proofs.Source.Relocation

/-!
# Blanks between lexemes

Blanks part lexemes and do nothing else, for no separator is a blank. Main statement: where no
lexeme reaches across, blanks may be put into a source. What stands behind them moves along, and the
value stays, or the error does, which moves if it stands behind them.
-/
namespace Reckoner

/-- No lexeme of the source reaches across the byte offset. -/
def IsBoundary (separator : Char) (source : String) (place : Nat) : Prop :=
  ∀ l ∈ lexemes separator source, l.stop ≤ place ∨ place ≤ l.start

instance (separator : Char) (source : String) (place : Nat) :
    Decidable (IsBoundary separator source place) :=
  inferInstanceAs (Decidable (∀ l ∈ lexemes separator source, l.stop ≤ place ∨ place ≤ l.start))

/-- Where a byte offset is found after `width` bytes have been put in at `place`. -/
def shifted (place width position : Nat) : Nat :=
  if place ≤ position then position + width else position

section Sources

variable {separator : Separator} {front blanks back : String}

theorem lexemes_of_isBoundary
    (h : IsBoundary separator.char (front ++ back) (byteLength front.toList)) :
    lexemes separator.char (front ++ back) = lexemesFrom separator.char 0 front.toList ++
      lexemesFrom separator.char (byteLength front.toList) back.toList := by
  have hwhole : ∀ l ∈ lexemesFrom separator.char 0 (front.toList ++ back.toList),
      l.stop ≤ 0 + byteLength front.toList ∨ 0 + byteLength front.toList ≤ l.start := by
    rw [Nat.zero_add, ← String.toList_append]
    exact h
  have hcut := lexemesFrom_append_of_boundary 0 front.toList hwhole
  rwa [Nat.zero_add, ← String.toList_append] at hcut

theorem lexemes_blanks_of_isBoundary (hblanks : ∀ c ∈ blanks.toList, isBlank c = true)
    (h : IsBoundary separator.char (front ++ back) (byteLength front.toList)) :
    lexemes separator.char (front ++ blanks ++ back) =
      lexemesFrom separator.char 0 front.toList ++
        lexemesFrom separator.char (byteLength front.toList + byteLength blanks.toList)
          back.toList := by
  by_cases hne : blanks.toList = []
  · obtain rfl := String.toList_eq_nil_iff.mp hne
    rw [String.append_empty, lexemes_of_isBoundary h]
    rfl
  · have hcut := lexemesFrom_append separator hne hblanks 0 front.toList back.toList
    rwa [Nat.zero_add, ← List.append_assoc, ← String.toList_append, ← String.toList_append] at hcut

/-- Blanks at a boundary move the lexemes behind them, and change none. -/
theorem lexemes_insert_blanks (hblanks : ∀ c ∈ blanks.toList, isBlank c = true)
    (h : IsBoundary separator.char (front ++ back) (byteLength front.toList)) :
    lexemes separator.char (front ++ blanks ++ back) =
      (lexemes separator.char (front ++ back)).map
        (.relocate (shifted (byteLength front.toList) (byteLength blanks.toList))) := by
  have hfront : ∀ l ∈ lexemesFrom separator.char 0 front.toList,
      l.relocate (shifted (byteLength front.toList) (byteLength blanks.toList)) = l := by
    intro l hl
    have hlt := Lexeme.start_lt_stop (text_ne_nil_of_mem hl)
    have hwithin := (span_within hl).2
    rw [Lexeme.relocate, shifted, if_neg (by omega)]
  have hback : ∀ l ∈ lexemesFrom separator.char (byteLength front.toList) back.toList,
      l.relocate (shifted (byteLength front.toList) (byteLength blanks.toList)) =
        l.relocate (· + byteLength blanks.toList) := by
    intro l hl
    rw [Lexeme.relocate, shifted, if_pos (span_within hl).1]
    rfl
  rw [lexemes_blanks_of_isBoundary hblanks h, lexemes_of_isBoundary h, lexemesFrom_add,
    List.map_append, List.map_congr_left hfront, List.map_congr_left hback, List.map_id']

theorem Input.ofSource_insert_blanks (hblanks : ∀ c ∈ blanks.toList, isBlank c = true)
    (h : IsBoundary separator.char (front ++ back) (byteLength front.toList)) :
    ofSource separator.char (front ++ blanks ++ back) =
      (ofSource separator.char (front ++ back)).relocate
        (shifted (byteLength front.toList) (byteLength blanks.toList)) := by
  have hend : byteLength (front ++ blanks ++ back).toList =
      shifted (byteLength front.toList) (byteLength blanks.toList)
        (byteLength (front ++ back).toList) := by
    simp only [String.toList_append, byteLength_append]
    rw [shifted, if_pos (Nat.le_add_right _ _)]
    omega
  rw [ofSource, lexemes_insert_blanks hblanks h, Lexeme.items_relocate, hend, ofItems_relocate]
  rfl

end Sources

/-- Blanks at a boundary of a source keep all its tokens and faults, move those behind them by as
many bytes, and do the same to the evaluation. A missing operand or bracket is missed at the new
end. -/
theorem evaluate_insert_blanks (front blanks back : String) (separator : Separator)
    (functions : FunctionTable) (hblanks : ∀ c ∈ blanks.toList, isBlank c = true)
    (hboundary : IsBoundary separator.char (front ++ back) (byteLength front.toList)) :
    (lexemes separator.char (front ++ blanks ++ back)).map Lexeme.item =
        ((lexemes separator.char (front ++ back)).map Lexeme.item).map
          (relocateItem (shifted (byteLength front.toList) (byteLength blanks.toList))) ∧
      evaluate (front ++ blanks ++ back) separator functions =
        (evaluate (front ++ back) separator functions).mapError
          (.relocate (shifted (byteLength front.toList) (byteLength blanks.toList))) ∧
      ∀ e, evaluate (front ++ blanks ++ back) separator functions = .error e →
        e.cause = .endOfExpression → e.position = byteLength (front ++ blanks ++ back).toList := by
  refine ⟨?_, ?_, fun e he hcause => (place_of_endOfExpression he hcause).1⟩
  · rw [lexemes_insert_blanks hblanks hboundary, Lexeme.items_relocate]
  · rw [evaluate, evaluate, Input.ofSource_insert_blanks hblanks hboundary,
      functions.read_relocate]

/-- Blanks between an operator and a faulty number move the number, which is faulty as before. -/
theorem evaluate_insert_blanks_malformed :
    (∀ c ∈ "\t\n".toList, isBlank c = true) ∧ IsBoundary '.' ("1+" ++ "2..3)") 2 ∧
      evaluate ("1+" ++ "\t\n" ++ "2..3)") .point .empty =
        .error ⟨4, .malformedNumber "2..3"⟩ := by
  have hblanks : ∀ c ∈ "\t\n".toList, isBlank c = true := by simp [isBlank]
  have hboundary : IsBoundary '.' ("1+" ++ "2..3)") 2 := by decide +kernel
  have he : evaluate ("1+" ++ "2..3)") .point .empty = .error ⟨2, .malformedNumber "2..3"⟩ := by
    decide +kernel
  have hinsert := (evaluate_insert_blanks "1+" "\t\n" "2..3)" .point .empty hblanks hboundary).2.1
  rw [he] at hinsert
  exact ⟨hblanks, hboundary, hinsert⟩

end Reckoner

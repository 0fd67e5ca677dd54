import Reckoner.Calculator
import Reckoner.Proofs.Decimal.Text
import Reckoner.Proofs.ErrorPlaces

/-!
# Messages are lines

Neither a result nor the message of an error has a line feed in it, whatever the source is: digits
have none, the separator is none, a lexeme has no blanks, and what cannot be seen is quoted by its
code point.
-/
namespace Reckoner

/-- The text does not break a line. -/
def Unbroken (text : String) : Prop := '\n' ∉ text.toList

instance (text : String) : Decidable (Unbroken text) :=
  inferInstanceAs (Decidable (¬ _))

theorem Unbroken.append {first second : String} (h : Unbroken first) (h' : Unbroken second) :
    Unbroken (first ++ second) := by
  rw [Unbroken, String.toList_append, List.mem_append, not_or]
  exact ⟨h, h'⟩

theorem ne_lf_of_isDigit {c : Char} (h : c.isDigit = true) : c ≠ '\n' := by
  rintro rfl
  cases h

section Digits

theorem lf_not_mem_toDigits {base : Nat} (hbase : 1 < base) (n : Nat) :
    '\n' ∉ Nat.toDigits base n := by
  induction n using Nat.strongRecOn with
  | _ n ih =>
    rw [Nat.toDigits_eq_if hbase]
    split
    · simp
    · next hn =>
      rw [List.mem_append, not_or]
      exact ⟨ih _ (Nat.div_lt_self (by omega) hbase), by simp⟩

theorem unbroken_toString (n : Nat) : Unbroken (toString n) := by
  rw [Unbroken, Nat.toString_eq_ofList_toDigits, String.toList_ofList]
  exact lf_not_mem_toDigits (by decide) n

theorem lf_not_mem_signText (negative : Bool) : '\n' ∉ signText negative := by
  cases negative <;> decide

theorem lf_not_mem_canonicalText (x : Float) : '\n' ∉ canonicalText x := by
  rw [canonicalText]
  split
  · decide
  · rw [List.mem_append, not_or]
    exact ⟨lf_not_mem_signText _, by decide⟩
  · rw [List.mem_append, not_or]
    refine ⟨lf_not_mem_signText _, fun h => ?_⟩
    rcases Decimal.isDigit_or_point_of_mem_toText h with hdigit | hpoint
    · exact ne_lf_of_isDigit hdigit rfl
    · cases hpoint

variable (separator : Separator)

theorem lf_not_mem_separatedText (x : Float) : '\n' ∉ separatedText x separator.char := by
  rw [separatedText, List.mem_map]
  rintro ⟨c, hc, hlf⟩
  split at hlf
  · have := separator.isBlank_char
    rw [hlf] at this
    cases this
  · exact lf_not_mem_canonicalText x (hlf ▸ hc)

theorem unbroken_render (x : Float) : Unbroken (render x separator.char) := by
  rw [Unbroken, render, String.toList_ofList, renderText]
  split
  · split
    · decide
    · split
      · rw [List.mem_append, not_or]
        exact ⟨lf_not_mem_signText _, lf_not_mem_toDigits (by decide) _⟩
      · exact lf_not_mem_separatedText separator x
  · exact lf_not_mem_separatedText separator x

end Digits

theorem lf_not_mem_escape (quote c : Char) : '\n' ∉ Text.escape quote c := by
  rw [Text.escape]
  split
  · decide
  split
  · decide
  split
  · decide
  split
  · decide
  next hlf =>
    split
    · simpa using Ne.symm hlf
    split
    · rw [Text.codePointEscape]
      simp [lf_not_mem_toDigits]
    · simpa using Ne.symm hlf

/-- A quoted character is shown on one line, also if it breaks lines itself. -/
theorem unbroken_quoteChar (c : Char) : Unbroken (Text.quoteChar c) := by
  rw [Unbroken, Text.quoteChar, Text.enclose, String.toList_ofList, List.flatMap_singleton]
  simp [lf_not_mem_escape]

theorem unbroken_display {t : Token} (h : ∀ name, t = .identifier name → Unbroken name) :
    Unbroken t.display := by
  cases t with
  | number value =>
    refine Unbroken.append (by decide) ?_
    rw [Unbroken, String.toList_ofList]
    exact lf_not_mem_canonicalText value
  | identifier name =>
    have hopening : Unbroken "identifier '" := by decide
    exact (hopening.append (h name rfl)).append (by decide)
  | symbol s => cases s <;> decide

section Errors

variable {source : String} {separator : Separator} {functions : FunctionTable} {e : EvalError}
  {before : List Token} {l : Lexeme} {behind : List Lexeme} {cause : Cause}

theorem unbroken_describe (h : Names functions before l behind cause) (htext : '\n' ∉ l.text) :
    Unbroken cause.describe := by
  cases h with
  | malformedNumber h =>
    have hlexeme : Unbroken (String.ofList l.text) := by
      rwa [Unbroken, String.toList_ofList]
    have hopening : Unbroken "Malformed number '" := by decide
    exact (hopening.append hlexeme).append (by decide)
  | unknownCharacter h hsingle =>
    have hopening : Unbroken "Unknown character " := by decide
    exact (hopening.append (unbroken_quoteChar _)).append (by decide)
  | @misplaced t cause h hname hcause =>
    have hidentifier : ∀ name, t = .identifier name → Unbroken name := fun name ht => by
      rwa [Unbroken, ← hname name ht]
    cases hcause with
    | operator =>
      have hopening : Unbroken "Expected a number but found " := by decide
      exact (hopening.append (unbroken_display hidentifier)).append (by decide)
    | unknown ht =>
      have hopening : Unbroken "Unknown function '" := by decide
      exact (hopening.append (hidentifier _ ht)).append (by decide)
    | closing | unclosed => decide
    | trailing =>
      have hopening : Unbroken "Extra input after expression: " := by decide
      exact (hopening.append (unbroken_display hidentifier)).append (by decide)
    | tooDeep => decide
  | divisionByZero => decide

theorem unbroken_message (he : evaluate source separator functions = .error e) :
    Unbroken e.message := by
  have hdescribe : Unbroken e.cause.describe := by
    by_cases hcause : e.cause = .endOfExpression
    · rw [hcause]
      decide
    · obtain ⟨front, l, behind, before, hlexemes, -, -, hnames⟩ := names_lexeme he hcause
      have hl : l ∈ lexemes separator.char source := by simp [hlexemes]
      refine unbroken_describe hnames fun hlf => ?_
      cases isBlank_of_mem_text hl separator.isBlank_char _ hlf
  have hopening : Unbroken "Error at " := by decide
  have hcolon : Unbroken ": " := by decide
  exact ((hopening.append (unbroken_toString e.position)).append hcolon).append hdescribe

end Errors

end Reckoner

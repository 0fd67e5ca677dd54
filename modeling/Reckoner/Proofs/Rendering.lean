import Reckoner.Proofs.Binary64.Bits
import Reckoner.Proofs.Decimal.Shortest
import Reckoner.Proofs.Grammar.Input
import Reckoner.Proofs.Source.Numerals

/-!
# Rendering and evaluating

A rendered number is a decimal that rounds to it, with a sign in front. Such a text evaluates to the
number that it was rendered from. Main statement: evaluating what is rendered gives a finite number
back, except that zero loses its sign.
-/
namespace Reckoner

open Binary64 (view ofWord wordOfUnits signed unitsPerOne)

/-- A sign and a decimal evaluate to the number that the decimal rounds to, with that sign. -/
theorem evaluate_toText (negative : Bool) (d : Decimal) (separator : Separator)
    (functions : FunctionTable) :
    evaluate (String.ofList (signText negative ++ withSeparator separator.char d.toText)) separator
        functions = .ok (signed negative d.toFloat) := by
  cases negative with
  | false =>
    have hitems : (lexemesFrom separator.char 0 (withSeparator separator.char d.toText)).map
        Lexeme.item = [⟨.number d.toFloat, 0⟩].map .ok := by
      rw [lexemesFrom_toText]
      rfl
    have hadmits : Admits functions.contains nestingLimit .expression [⟨.number d.toFloat, 0⟩]
        (.number d.toFloat) :=
      .operand .expression (.operand .term (.unsigned (.base (.number rfl))))
    refine evaluate_of_items ?_ hadmits
    rwa [lexemes, String.toList_ofList]
  | true =>
    have hitems : (lexemesFrom separator.char 0 ('-' :: withSeparator separator.char d.toText)).map
        Lexeme.item = [⟨.symbol .minus, 0⟩, ⟨.number d.toFloat, 1⟩].map .ok := by
      rw [lexemesFrom_minus, lexemesFrom_toText]
      rfl
    have hadmits : Admits functions.contains nestingLimit .expression
        [⟨.symbol .minus, 0⟩, ⟨.number d.toFloat, 1⟩] (.signed .minus (.number d.toFloat)) :=
      .operand .expression (.operand .term (.signed rfl (.base (.number rfl))))
    refine evaluate_of_items ?_ hadmits
    rwa [lexemes, String.toList_ofList]

theorem eq_of_plainInteger? {units n : Nat} (h : plainInteger? units = some n) :
    n * unitsPerOne = units := by
  rw [plainInteger?] at h
  split at h
  case isTrue hplain =>
    obtain rfl := Option.some.inj h
    exact Nat.div_mul_cancel (Nat.dvd_of_mod_eq_zero hplain.1)
  case isFalse => cases h

theorem separatedText_of_finite {x : Float} {negative : Bool} {units : Nat}
    (h : view x = .finite negative units) (separator : Char) :
    separatedText x separator =
      signText negative ++ withSeparator separator (Decimal.shortest units).toText := by
  have hsign : withSeparator separator (signText negative) = signText negative := by
    cases negative <;> rfl
  calc separatedText x separator
      = withSeparator separator (signText negative ++ (Decimal.shortest units).toText) := by
        rw [separatedText, canonicalText, h]
        rfl
    _ = _ := by
        rw [withSeparator, List.map_append]
        exact congrArg (· ++ _) hsign

theorem renderText_zero {x : Float} {negative : Bool} (h : view x = .finite negative 0)
    (separator : Char) : renderText x separator = ['0'] := by
  rw [renderText, h]
  exact if_pos rfl

/-- What is rendered is a decimal that rounds to the number, with the sign of all but zero. -/
theorem renderText_of_finite {x : Float} {negative : Bool} {units : Nat}
    (h : view x = .finite negative units) (separator : Char) :
    ∃ d : Decimal, d.toWord = wordOfUnits units 1 ∧
      renderText x separator =
        signText (negative && units != 0) ++ withSeparator separator d.toText := by
  by_cases hzero : units = 0
  · subst hzero
    refine ⟨⟨0, 0⟩, ?_, ?_⟩
    · rw [Decimal.toWord_whole, Nat.zero_mul]
    · rw [renderText_zero h, Decimal.toText_whole, withSeparator_digits, bne_self_eq_false,
        Bool.and_false]
      rfl
  · have hsign : (units != 0) = true := bne_iff_ne.mpr hzero
    rw [hsign, Bool.and_true, renderText, h]
    simp only [if_neg hzero]
    cases hplain : plainInteger? units with
    | none => exact ⟨_, Decimal.toWord_shortest units, separatedText_of_finite h separator⟩
    | some n =>
      refine ⟨⟨n, 0⟩, ?_, ?_⟩
      · rw [Decimal.toWord_whole, eq_of_plainInteger? hplain]
      · rw [Decimal.toText_whole, withSeparator_digits]

theorem view_zero : view 0 = .finite false 0 := by decide

theorem view_neg_zero : view (-0) = .finite true 0 := by decide

/-- The number that is left of a finite one when zero loses its sign. -/
theorem signed_without_zero {x : Float} {negative : Bool} {units : Nat}
    (h : view x = .finite negative units) :
    signed (negative && units != 0) (ofWord (wordOfUnits units 1)) = if x = -0 then 0 else x := by
  have hvalue := Binary64.signed_ofWord h
  split
  case isTrue hzero =>
    rw [hzero, view_neg_zero] at h
    cases h
    rfl
  case isFalse hne =>
    by_cases hunits : units = 0
    · subst hunits
      cases negative with
      | false => exact hvalue
      | true => exact absurd hvalue.symm hne
    · have hsign : (units != 0) = true := bne_iff_ne.mpr hunits
      rwa [hsign, Bool.and_true]

variable (separator : Separator) (functions : FunctionTable)

/-- A finite number comes back from its text bit by bit, only zero without its sign; so rendering
what was evaluated gives the same text once more. -/
theorem evaluate_render (x : Float) (hx : x.isFinite = true) :
    evaluate (render x separator.char) separator functions = .ok (if x = -0 then 0 else x) ∧
      ∀ v, evaluate (render x separator.char) separator functions = .ok v →
        render v separator.char = render x separator.char := by
  obtain ⟨negative, units, hview⟩ := Binary64.isFinite_iff.mp hx
  obtain ⟨d, hd, htext⟩ := renderText_of_finite hview separator.char
  have hevaluate : evaluate (render x separator.char) separator functions =
      .ok (if x = -0 then 0 else x) := by
    rw [render, htext, evaluate_toText, Decimal.toFloat, hd, signed_without_zero hview]
  refine ⟨hevaluate, fun v hv => ?_⟩
  rw [hevaluate] at hv
  obtain rfl := Except.ok.inj hv
  split
  case isTrue hzero =>
    rw [hzero, render, render, renderText_zero view_zero, renderText_zero view_neg_zero]
  case isFalse => rfl

/-- The smallest positive number has 324 digits behind its separator, which takes two bytes. -/
theorem evaluate_render_smallest :
    (Float.ofBits 1).isFinite = true ∧
      evaluate (render (Float.ofBits 1) '·') ⟨'·', by decide⟩ .empty = .ok (Float.ofBits 1) :=
  have hfinite : (Float.ofBits 1).isFinite = true := by decide
  have hsign : (if Float.ofBits 1 = -0 then 0 else Float.ofBits 1) = Float.ofBits 1 :=
    if_neg (by decide)
  ⟨hfinite, hsign ▸ (evaluate_render ⟨'·', by decide⟩ .empty (Float.ofBits 1) hfinite).1⟩

end Reckoner

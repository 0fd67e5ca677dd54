import Reckoner.Evaluate
import Reckoner.Proofs.Source.Joints

/-!
# Numerals in a source

The text of a decimal with a separator in place of the point is cut out of a source as one lexeme,
and this lexeme is the number that the decimal rounds to.
-/
namespace Reckoner

/-- The text with the separator in place of the point. -/
def withSeparator (separator : Char) (text : List Char) : List Char :=
  text.map fun c => if c = '.' then separator else c

theorem map_withSeparator (separator : Separator) {text : List Char}
    (h : ∀ c ∈ text, c.isDigit = true ∨ c = '.') :
    (withSeparator separator.char text).map (fun c => if c = separator.char then '.' else c) =
      text := by
  rw [withSeparator, List.map_map]
  refine (List.map_congr_left fun c hc => ?_).trans (List.map_id text)
  by_cases hpoint : c = '.'
  · simp [hpoint]
  · have hdigit := (h c hc).resolve_right hpoint
    simp [hpoint, separator.ne_of_isDigit hdigit]

theorem withSeparator_of_isDigit (separator : Char) {text : List Char}
    (h : ∀ c ∈ text, c.isDigit = true) : withSeparator separator text = text := by
  refine (List.map_congr_left fun c hc => ?_).trans (List.map_id _)
  have hpoint : c ≠ '.' := by
    rintro rfl
    cases h _ hc
  exact if_neg hpoint

theorem withSeparator_digits (separator : Char) (n : Nat) :
    withSeparator separator (Decimal.digits n) = Decimal.digits n :=
  withSeparator_of_isDigit separator fun _ => Decimal.isDigit_of_mem_digits

theorem readNumber_withSeparator (separator : Separator) (d : Decimal) :
    readNumber separator.char (withSeparator separator.char d.toText) =
      .ok (.number d.toFloat) := by
  rw [readNumber, map_withSeparator separator fun c => Decimal.isDigit_or_point_of_mem_toText,
    Decimal.ofText?_toText]

theorem lexemesFrom_toText (separator : Separator) (start : Nat) (d : Decimal) :
    lexemesFrom separator.char start (withSeparator separator.char d.toText) =
      [⟨start, withSeparator separator.char d.toText, .ok (.number d.toFloat)⟩] := by
  have hread := readNumber_withSeparator separator d
  obtain ⟨c, rest, htext, hc⟩ := d.toText_eq_cons
  have hmem : ∀ c ∈ rest, c.isDigit = true ∨ c = '.' := fun c hmem =>
    Decimal.isDigit_or_point_of_mem_toText (htext ▸ List.mem_cons_of_mem _ hmem)
  have hpoint : c ≠ '.' := by
    rintro rfl
    cases hc
  have hcons : withSeparator separator.char d.toText =
      c :: withSeparator separator.char rest := by
    rw [htext, withSeparator, List.map_cons, if_neg hpoint]
    rfl
  have hkind : LexemeKind.ofStart separator.char c = .number := by
    rw [LexemeKind.ofStart, if_pos hc]
  have hmore : ∀ c ∈ withSeparator separator.char rest,
      LexemeKind.number.continuesWith separator.char c = true := by
    intro d hd
    obtain ⟨c, hc, rfl⟩ := List.mem_map.mp hd
    by_cases hpoint : c = '.'
    · simp [LexemeKind.continuesWith, hpoint]
    · have hdigit := (hmem c hc).resolve_right hpoint
      simp [LexemeKind.continuesWith, hpoint, hdigit]
  rw [hcons] at hread ⊢
  rw [lexemesFrom_cons _ _ _ (isBlank_of_isDigit hc)]
  simp only [hkind, List.takeWhile_eq_self_iff.mpr hmore, List.dropWhile_eq_nil_iff.mpr hmore,
    lexemesFrom_nil, readLexeme, hread]

theorem lexemesFrom_minus (separator : Char) (start : Nat) (text : List Char) :
    lexemesFrom separator start ('-' :: text) =
      ⟨start, ['-'], .ok (.symbol .minus)⟩ :: lexemesFrom separator (start + 1) text :=
  lexemesFrom_symbol separator start .minus text

end Reckoner

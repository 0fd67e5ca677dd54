import Mathlib.Data.List.TakeWhile
import Reckoner.Decimal.Basic

/-!
# The text of a decimal

A decimal's text starts with a digit, holds nothing but digits and points, and reads back as the
same decimal.
-/
namespace Reckoner.Decimal

section Reading

variable {whole fraction : List Char} (hwhole : ∀ c ∈ whole, c.isDigit = true)
include hwhole

theorem ofText?_whole (hne : whole ≠ []) :
    ofText? whole = some ⟨Nat.ofDigitChars 10 whole 0, 0⟩ := by
  simp only [ofText?, List.takeWhile_eq_self_iff.mpr hwhole, List.dropWhile_eq_nil_iff.mpr hwhole,
    if_neg hne]

theorem ofText?_point (hfraction : ∀ c ∈ fraction, c.isDigit = true)
    (hne : whole ++ fraction ≠ []) :
    ofText? (whole ++ '.' :: fraction) =
      some ⟨Nat.ofDigitChars 10 (whole ++ fraction) 0, fraction.length⟩ := by
  have hpoint : ¬ '.'.isDigit = true := by decide
  simp only [ofText?, List.takeWhile_append_of_pos hwhole, List.dropWhile_append_of_pos hwhole,
    List.takeWhile_cons_of_neg hpoint, List.dropWhile_cons_of_neg hpoint, List.append_nil,
    List.all_eq_true.mpr hfraction, hne, ne_eq, not_false_eq_true, and_self, if_true]

end Reading

theorem isDigit_of_mem_digits {n : Nat} {c : Char} (h : c ∈ digits n) : c.isDigit = true :=
  Nat.isDigit_of_mem_toDigits (by decide) (by decide) h

theorem digits_ne_nil (n : Nat) : digits n ≠ [] :=
  Nat.toDigits_ne_nil

theorem ofDigitChars_digits (n : Nat) : Nat.ofDigitChars 10 (digits n) 0 = n :=
  Nat.ofDigitChars_ten_toDigits

theorem toText_whole (n : Nat) : toText ⟨n, 0⟩ = digits n := by
  rw [toText, if_pos rfl]

/-- The digits behind the point, as many as there are places. -/
def fractionText (d : Decimal) : List Char :=
  let fraction := digits (d.numerator % d.denominator)
  List.replicate (d.places - fraction.length) '0' ++ fraction

theorem toText_of_places {d : Decimal} (h : d.places ≠ 0) :
    d.toText = digits (d.numerator / d.denominator) ++ '.' :: d.fractionText := by
  rw [toText, if_neg h, fractionText]

theorem isDigit_of_mem_fractionText {d : Decimal} {c : Char} (h : c ∈ d.fractionText) :
    c.isDigit = true := by
  rcases List.mem_append.mp h with h | h
  · obtain rfl := List.eq_of_mem_replicate h
    decide
  · exact isDigit_of_mem_digits h

theorem length_fractionText {d : Decimal} (h : d.places ≠ 0) :
    d.fractionText.length = d.places := by
  have hlength : (digits (d.numerator % d.denominator)).length ≤ d.places :=
    (Nat.length_toDigits_le_iff (by decide) (Nat.pos_of_ne_zero h)).mpr
      (Nat.mod_lt _ (Nat.pow_pos (by decide)))
  rw [fractionText, List.length_append, List.length_replicate]
  omega

theorem ofDigitChars_fractionText (d : Decimal) :
    Nat.ofDigitChars 10 d.fractionText 0 = d.numerator % d.denominator := by
  rw [fractionText, Nat.ofDigitChars_append, Nat.ofDigitChars_replicate_zero, Nat.mul_zero,
    ofDigitChars_digits]

/-- The text of a decimal reads back. -/
theorem ofText?_toText (d : Decimal) : ofText? d.toText = some d := by
  have hwhole {n : Nat} : ∀ c ∈ digits n, c.isDigit = true := fun c => isDigit_of_mem_digits
  by_cases h : d.places = 0
  · rw [toText, if_pos h, ofText?_whole hwhole (digits_ne_nil _), ofDigitChars_digits, ← h]
  · rw [toText_of_places h, ofText?_point hwhole (fun c => isDigit_of_mem_fractionText)
      (by simp [digits_ne_nil]), Nat.ofDigitChars_append, ofDigitChars_digits,
      Nat.ofDigitChars_eq_ofDigitChars_zero, length_fractionText h, ofDigitChars_fractionText]
    have hvalue := Nat.div_add_mod d.numerator d.denominator
    rw [denominator, Nat.pow_eq] at *
    rw [hvalue]

theorem isDigit_or_point_of_mem_toText {d : Decimal} {c : Char} (h : c ∈ d.toText) :
    c.isDigit = true ∨ c = '.' := by
  by_cases hplaces : d.places = 0
  · rw [toText, if_pos hplaces] at h
    exact .inl (isDigit_of_mem_digits h)
  · rw [toText_of_places hplaces, List.mem_append, List.mem_cons] at h
    rcases h with h | h | h
    · exact .inl (isDigit_of_mem_digits h)
    · exact .inr h
    · exact .inl (isDigit_of_mem_fractionText h)

theorem toText_eq_cons (d : Decimal) : ∃ c rest, d.toText = c :: rest ∧ c.isDigit = true := by
  have hdigits (n : Nat) : ∃ c rest, digits n = c :: rest ∧ c.isDigit = true := by
    obtain ⟨c, rest, h⟩ := List.exists_cons_of_ne_nil (digits_ne_nil n)
    exact ⟨c, rest, h, isDigit_of_mem_digits (h ▸ List.mem_cons_self)⟩
  by_cases h : d.places = 0
  · rw [toText, if_pos h]
    exact hdigits d.numerator
  · obtain ⟨c, rest, hwhole, hc⟩ := hdigits (d.numerator / d.denominator)
    exact ⟨c, rest ++ '.' :: d.fractionText, by rw [toText_of_places h, hwhole]; rfl, hc⟩

end Reckoner.Decimal

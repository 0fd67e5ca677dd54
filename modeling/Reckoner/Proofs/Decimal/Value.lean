import Mathlib
import Reckoner.Proofs.Binary64.Nearest
import Reckoner.Proofs.Decimal.Numeral

/-!
# What a numeral denotes

A plain numeral denotes a rational, digit by digit: ones, tens and so on in front of the point,
tenths and so on behind it. Main statement: it is read as the binary64 number nearest to this
rational, at any length.
-/
namespace Reckoner.Decimal

open Binary64 (IsNearest isNearest_nearestWord)

def digitValue (c : Char) : ℕ := c.toNat - '0'.toNat

/-- Digits that count ones, tens and so on, from the right. -/
def wholeValue : List Char → ℕ
  | [] => 0
  | c :: cs => digitValue c * 10 ^ cs.length + wholeValue cs

/-- Digits that count tenths, hundredths and so on, from the left. -/
def fractionValue : List Char → ℚ
  | [] => 0
  | c :: cs => (digitValue c + fractionValue cs) / 10

/-- The rational that digits with a point among them denote. -/
def numeralValue (text : List Char) : ℚ :=
  wholeValue (text.takeWhile (· != '.')) + fractionValue (text.dropWhile (· != '.')).tail

section Texts

variable {whole text : List Char}

theorem bne_point_of_mem (h : '.' ∉ text) : ∀ c ∈ text, (c != '.') = true :=
  fun _ hc => bne_iff_ne.mpr fun heq => h (heq ▸ hc)

theorem numeralValue_point (h : '.' ∉ whole) (fraction : List Char) :
    numeralValue (whole ++ '.' :: fraction) = wholeValue whole + fractionValue fraction := by
  have hwhole := bne_point_of_mem h
  rw [numeralValue, List.takeWhile_append_of_pos hwhole, List.dropWhile_append_of_pos hwhole,
    List.takeWhile_cons_of_neg (by simp), List.dropWhile_cons_of_neg (by simp), List.append_nil,
    List.tail_cons]

theorem numeralValue_whole (h : '.' ∉ text) : numeralValue text = wholeValue text := by
  have hwhole := bne_point_of_mem h
  rw [numeralValue, List.takeWhile_eq_self_iff.mpr hwhole, List.dropWhile_eq_nil_iff.mpr hwhole]
  exact add_zero _

theorem wholeValue_zeros (n : ℕ) (digits : List Char) :
    wholeValue (List.replicate n '0' ++ digits) = wholeValue digits := by
  induction n with
  | zero => rfl
  | succ n ih =>
    rw [List.replicate_succ, List.cons_append, wholeValue, ih]
    exact (congrArg (· + _) (Nat.zero_mul _)).trans (Nat.zero_add _)

theorem fractionValue_zeros (n : ℕ) (digits : List Char) :
    fractionValue (digits ++ List.replicate n '0') = fractionValue digits := by
  have hzero : (digitValue '0' : ℚ) = 0 := Nat.cast_zero
  induction digits with
  | nil =>
    induction n with
    | zero => rfl
    | succ n ih =>
      rw [List.nil_append, fractionValue] at ih ⊢
      rw [List.replicate_succ, fractionValue, ih, hzero, add_zero, zero_div]
  | cons c digits ih => rw [List.cons_append, fractionValue, fractionValue, ih]

theorem numeralValue_leading_zeros (n : ℕ) (text : List Char) :
    numeralValue (List.replicate n '0' ++ text) = numeralValue text := by
  have hzeros : ∀ c ∈ List.replicate n '0', (c != '.') = true := fun c hc => by
    rw [List.eq_of_mem_replicate hc]
    rfl
  rw [numeralValue, numeralValue, List.takeWhile_append_of_pos hzeros,
    List.dropWhile_append_of_pos hzeros, wholeValue_zeros]

theorem numeralValue_trailing_zeros (n : ℕ) (h : '.' ∈ text) :
    numeralValue (text ++ List.replicate n '0') = numeralValue text := by
  obtain ⟨whole, fraction, rfl, hwhole⟩ := List.eq_append_cons_of_mem h
  rw [List.append_assoc, List.cons_append, numeralValue_point hwhole, numeralValue_point hwhole,
    fractionValue_zeros]

theorem numeralValue_trailing_point (h : '.' ∉ text) :
    numeralValue (text ++ ['.']) = numeralValue text := by
  rw [numeralValue_point h, numeralValue_whole h]
  exact add_zero _

end Texts

def value (d : Decimal) : ℚ := d.numerator / d.denominator

theorem denominator_pos (d : Decimal) : 0 < d.denominator := Nat.pow_pos (by decide)

/-- A decimal is read as the nearest number. -/
theorem isNearest_toWord (d : Decimal) : IsNearest d.value d.toWord :=
  isNearest_nearestWord d.numerator d.denominator_pos

theorem ofDigitChars_eq_wholeValue (digits : List Char) :
    Nat.ofDigitChars 10 digits 0 = wholeValue digits := by
  induction digits with
  | nil => rfl
  | cons c cs ih =>
    rw [Nat.ofDigitChars_cons, Nat.ofDigitChars_eq_ofDigitChars_zero, ih, Nat.mul_zero,
      Nat.zero_add, wholeValue, Nat.mul_comm]
    rfl

/-- Moving the point behind the digits multiplies by a power of ten. -/
theorem wholeValue_eq_fractionValue (digits : List Char) :
    (wholeValue digits : ℚ) = fractionValue digits * 10 ^ digits.length := by
  induction digits with
  | nil => simp [wholeValue, fractionValue]
  | cons c cs ih =>
    rw [wholeValue, fractionValue, List.length_cons, pow_succ]
    push_cast
    rw [ih]
    ring

theorem value_ofNumeral {text : List Char} (h : IsNumeral '.' text) :
    (ofNumeral '.' text).value = numeralValue text := by
  by_cases hpoint : '.' ∈ text
  · obtain ⟨whole, fraction, rfl, hwhole, hfraction⟩ := exists_halves h.single hpoint
    have hdigits : Nat.ofDigitChars 10 (whole ++ fraction) 0 =
        10 ^ fraction.length * wholeValue whole + wholeValue fraction := by
      rw [Nat.ofDigitChars_append, Nat.ofDigitChars_eq_ofDigitChars_zero,
        ofDigitChars_eq_wholeValue, ofDigitChars_eq_wholeValue]
    have hpower : (10 : ℚ) ^ fraction.length ≠ 0 := by positivity
    rw [ofNumeral_point (h.isDigit_of_subset (by simp) hwhole)
      (h.isDigit_of_subset (by simp) hfraction), numeralValue_point hwhole, value, denominator,
      hdigits, Nat.pow_eq]
    push_cast
    rw [wholeValue_eq_fractionValue fraction, mul_comm, ← add_mul, mul_div_cancel_right₀ _ hpower]
  · rw [ofNumeral_whole (h.isDigit_of_subset (List.Subset.refl text) hpoint),
      numeralValue_whole hpoint, value, denominator, ofDigitChars_eq_wholeValue]
    exact div_one _

end Reckoner.Decimal

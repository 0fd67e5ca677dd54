import Mathlib
import Reckoner.Proofs.Binary64.Value
import Reckoner.Proofs.Decimal.WholeNumbers
import Reckoner.Proofs.Rendering

/-!
# What is rendered is canonical

Whole numbers up to `2 ^ 53` are rendered by a rule of their own, which is exact. Main statement:
this rule and the shortest decimal that reads back give the same text, so that a result other than
zero is always its canonical text with the separator in place of the point.
-/
namespace Reckoner

open Binary64 (unitsOfWord unitsPerOne value? valueOfWord view view_of_value? withSign wordOf)
open Decimal (IsShortest digits isShortest_shortest shortest)

/-! ### Whole numbers -/

theorem le_of_plainInteger? {units n : ℕ} (h : plainInteger? units = some n) : n ≤ 2 ^ 53 := by
  rw [plainInteger?] at h
  split at h
  case isTrue hplain =>
    obtain rfl := Option.some.inj h
    exact hplain.2
  case isFalse => cases h

theorem toString_int (n : ℤ) :
    toString n = String.ofList (signText (decide (n < 0)) ++ digits n.natAbs) := by
  cases n with
  | ofNat m =>
    have hsign : decide (Int.ofNat m < 0) = false := decide_eq_false (Int.natCast_nonneg m).not_gt
    change Nat.repr m = _
    rw [Nat.repr_eq_ofList_toDigits, hsign]
    rfl
  | negSucc m =>
    change "-" ++ Nat.repr (m + 1) = _
    rw [Nat.repr_eq_ofList_toDigits, decide_eq_true (Int.negSucc_lt_zero m), String.ofList_append]
    rfl

theorem withSign_natAbs (n : ℤ) : withSign (decide (n < 0)) n.natAbs = n := by
  rcases lt_or_ge n 0 with hneg | hnonneg
  · rw [decide_eq_true hneg, withSign, if_pos rfl, ← Int.cast_natCast, Int.ofNat_natAbs_of_nonpos
      hneg.le, Int.cast_neg, neg_neg]
  · rw [decide_eq_false hnonneg.not_gt, withSign, if_neg Bool.false_ne_true, ← Int.cast_natCast,
      Int.natAbs_of_nonneg hnonneg]

theorem natAbs_le_of_abs_le {n : ℤ} (h : |n| ≤ 2 ^ 53) : n.natAbs ≤ 2 ^ 53 := by
  rw [Int.abs_eq_natAbs] at h
  exact_mod_cast h

/-- The text of a whole number up to `2 ^ 53` evaluates to this number. -/
theorem evaluate_toString {n : ℤ} (h : |n| ≤ 2 ^ 53) (separator : Separator)
    (functions : FunctionTable) :
    ∃ x, evaluate (toString n) separator functions = .ok x ∧ value? x = some (n : ℚ) := by
  have htext : toString n = String.ofList (signText (decide (n < 0)) ++
      withSeparator separator.char (Decimal.mk n.natAbs 0).toText) := by
    rw [toString_int, Decimal.toText_whole, withSeparator_digits]
  obtain ⟨word, hword, hvalue⟩ := Binary64.exists_word_of_nat (natAbs_le_of_abs_le h)
  have hreads : (Decimal.mk n.natAbs 0).toWord = word := by
    rw [Decimal.toWord_eq_iff, Decimal.value_of_places rfl, ← hvalue]
    exact Binary64.isNearest_valueOfWord hword
  refine ⟨_, htext ▸ evaluate_toText _ _ separator functions, ?_⟩
  rw [Decimal.toFloat, hreads, Binary64.value?_signed_ofWord hword, hvalue, withSign_natAbs]

/-! ### Rendering -/

section Rendering

variable {x : Float} {q : ℚ}

theorem renderText_eq_separatedText (hne : value? x ≠ some 0) (separator : Char) :
    renderText x separator = separatedText x separator := by
  cases hview : view x with
  | nan => rw [renderText, hview]
  | infinite negative => rw [renderText, hview]
  | finite negative units =>
    have hunits : units ≠ 0 := by
      rintro rfl
      rw [Binary64.value?_of_view hview, Nat.cast_zero, zero_div, Binary64.withSign_zero] at hne
      exact hne rfl
    rw [renderText, hview]
    simp only [if_neg hunits]
    cases hplain : plainInteger? units with
    | none => rfl
    | some n =>
      rw [separatedText_of_finite hview, ← eq_of_plainInteger? hplain,
        Decimal.toText_shortest_of_nat (le_of_plainInteger? hplain), withSeparator_digits]

/-- The canonical text of a number is its shortest decimal behind its sign. -/
theorem canonicalText_of_value? (h : value? x = some q) (hne : q ≠ 0) :
    canonicalText x = signText (decide (q < 0)) ++ (shortest (unitsOfWord (wordOf x))).toText := by
  rw [canonicalText, (view_of_value? h hne).1]

theorem isShortest_iff (h : value? x = some q) (hne : q ≠ 0) (d : Decimal) :
    IsShortest (wordOf x) d ↔ d = shortest (unitsOfWord (wordOf x)) := by
  obtain ⟨-, hword, hpos, -⟩ := view_of_value? h hne
  have hshortest := isShortest_shortest hword hpos
  constructor
  · exact fun hd => hd.unique hshortest
  · rintro rfl
    exact hshortest

theorem units_of_int {n : ℤ} (h : value? x = some (n : ℚ)) :
    unitsOfWord (wordOf x) = n.natAbs * unitsPerOne := by
  obtain ⟨negative, -, -, hvalue⟩ := Binary64.exists_of_value? h
  have habs : |(n : ℚ)| = valueOfWord (wordOf x) := by
    rw [hvalue, Binary64.abs_withSign, abs_of_nonneg (Binary64.valueOfWord_nonneg _)]
  rw [valueOfWord, eq_div_iff Binary64.unitsPerOne_pos.ne', ← Int.cast_abs, Int.abs_eq_natAbs,
    Int.cast_natCast] at habs
  exact_mod_cast habs.symm

/-- In canonical text a whole number up to `2 ^ 53` has all of its digits. -/
theorem canonicalText_of_int {n : ℤ} (hn : |n| ≤ 2 ^ 53) (h : value? x = some (n : ℚ))
    (hne : n ≠ 0) : canonicalText x = (toString n).toList := by
  rw [canonicalText_of_value? h (Int.cast_ne_zero.mpr hne), units_of_int h,
    Decimal.toText_shortest_of_nat (natAbs_le_of_abs_le hn), toString_int, String.toList_ofList]
  simp only [Int.cast_lt_zero]

theorem renderText_of_value?_zero (h : value? x = some 0) (separator : Char) :
    renderText x separator = ['0'] := by
  obtain ⟨negative, hview, -, -⟩ := Binary64.exists_of_value? h
  have hunits : unitsOfWord (wordOf x) = (0 : ℤ).natAbs * unitsPerOne :=
    units_of_int (by rw [h, Int.cast_zero])
  rw [hunits, Int.natAbs_zero, Nat.zero_mul] at hview
  exact renderText_zero hview separator

theorem renderText_of_value? (h : value? x = some q) (hne : q ≠ 0) (separator : Char) :
    renderText x separator = signText (decide (q < 0)) ++
      withSeparator separator (shortest (unitsOfWord (wordOf x))).toText := by
  have hzero : value? x ≠ some 0 := by
    rw [h]
    exact fun heq => hne (Option.some.inj heq)
  rw [renderText_eq_separatedText hzero, separatedText_of_finite (view_of_value? h hne).1]

theorem render_of_int {n : ℤ} (hn : |n| ≤ 2 ^ 53) (h : value? x = some (n : ℚ))
    (separator : Char) : render x separator = toString n := by
  by_cases hne : n = 0
  · subst hne
    rw [render, renderText_of_value?_zero (by rw [h, Int.cast_zero])]
    rfl
  · rw [render, renderText_of_value? h (Int.cast_ne_zero.mpr hne), units_of_int h,
      Decimal.toText_shortest_of_nat (natAbs_le_of_abs_le hn), withSeparator_digits, toString_int]
    simp only [Int.cast_lt_zero]

end Rendering

/-! ### Forms -/

def IsDigits (text : List Char) : Prop :=
  text ≠ [] ∧ ∀ c ∈ text, c.isDigit = true

def IsWholeText (text : List Char) : Prop :=
  ∃ negative whole, IsDigits whole ∧ text = signText negative ++ whole

/-- Digits on both sides of the separator, behind an optional minus sign. -/
def IsFractionText (separator : Char) (text : List Char) : Prop :=
  ∃ negative whole fraction, IsDigits whole ∧ IsDigits fraction ∧
    text = signText negative ++ whole ++ separator :: fraction

theorem isDigits_digits (n : ℕ) : IsDigits (digits n) :=
  ⟨Decimal.digits_ne_nil n, fun _ => Decimal.isDigit_of_mem_digits⟩

theorem withSeparator_toText_of_places (separator : Char) {d : Decimal} (h : d.places ≠ 0) :
    withSeparator separator d.toText =
      digits (d.numerator / d.denominator) ++ separator :: d.fractionText := by
  rw [Decimal.toText_of_places h, withSeparator, List.map_append, List.map_cons, if_pos rfl]
  exact congrArg₂ (· ++ separator :: ·) (withSeparator_digits separator _)
    (withSeparator_of_isDigit separator fun _ => Decimal.isDigit_of_mem_fractionText)

theorem isDigits_fractionText {d : Decimal} (h : d.places ≠ 0) : IsDigits d.fractionText := by
  refine ⟨List.ne_nil_of_length_pos ?_, fun _ => Decimal.isDigit_of_mem_fractionText⟩
  rw [Decimal.length_fractionText h]
  exact Nat.pos_of_ne_zero h

/-- A separator that is no digit tells the two forms apart. -/
theorem not_isFractionText_of_isWholeText {separator : Char} (h : separator.isDigit = false)
    {text : List Char} (hwhole : IsWholeText text) : ¬ IsFractionText separator text := by
  obtain ⟨negative, digits, ⟨-, hdigits⟩, rfl⟩ := hwhole
  rintro ⟨sign, whole, fraction, ⟨hne, -⟩, -, heq⟩
  have htail : ∀ c ∈ (signText negative ++ digits).tail, c.isDigit = true := by
    cases negative with
    | false => exact fun c hc => hdigits c (List.mem_of_mem_tail hc)
    | true => exact hdigits
  have hmem : separator ∈ (signText sign ++ whole ++ separator :: fraction).tail := by
    rw [List.tail_append_of_ne_nil (List.append_ne_nil_of_right_ne_nil _ hne)]
    exact List.mem_append_right _ List.mem_cons_self
  rw [← heq] at hmem
  rw [htail _ hmem] at h
  cases h

section Forms

variable {x : Float} {q : ℚ}

/-- The text of a number has a fraction exactly if the number is not whole. -/
theorem places_iff (h : value? x = some q) (hne : q ≠ 0) :
    (shortest (unitsOfWord (wordOf x))).places = 0 ↔ ∃ n : ℤ, q = n := by
  obtain ⟨-, hword, -, habs⟩ := view_of_value? h hne
  rw [Decimal.places_shortest_iff hword, ← habs]
  constructor
  · rintro ⟨m, hm⟩
    rcases abs_eq (Nat.cast_nonneg m) |>.mp hm with heq | heq
    · exact ⟨m, by rw [heq, Int.cast_natCast]⟩
    · exact ⟨-m, by rw [heq, Int.cast_neg, Int.cast_natCast]⟩
  · rintro ⟨n, rfl⟩
    exact ⟨n.natAbs, by rw [← Int.cast_abs, Int.abs_eq_natAbs, Int.cast_natCast]⟩

theorem isWholeText_of_int (h : value? x = some q) (hint : ∃ n : ℤ, q = n) (separator : Char) :
    IsWholeText (renderText x separator) := by
  by_cases hne : q = 0
  · subst hne
    exact ⟨false, digits 0, isDigits_digits 0, renderText_of_value?_zero h separator⟩
  · refine ⟨decide (q < 0), digits (shortest (unitsOfWord (wordOf x))).numerator,
      isDigits_digits _, ?_⟩
    rw [renderText_of_value? h hne, Decimal.toText, if_pos ((places_iff h hne).mpr hint),
      withSeparator_digits]

theorem isFractionText_of_not_int (h : value? x = some q) (hint : ¬ ∃ n : ℤ, q = n)
    (separator : Char) : IsFractionText separator (renderText x separator) := by
  have hne : q ≠ 0 := by
    rintro rfl
    exact hint ⟨0, Int.cast_zero.symm⟩
  have hplaces := mt (places_iff h hne).mp hint
  have hfraction := isDigits_fractionText hplaces
  rw [renderText_of_value? h hne, withSeparator_toText_of_places separator hplaces]
  exact ⟨_, _, _, isDigits_digits _, hfraction, (List.append_assoc _ _ _).symm⟩

end Forms

/-- A number other than zero is rendered as its canonical text with the separator in place of the
point. The canonical text of a finite number is the shortest decimal that reads back, of these the
closest, behind a sign. Up to `2 ^ 53` this is all digits of a whole number, whose text evaluates to
it and is rendered from it again. A finite number is rendered with a fraction exactly if it is not
whole. -/
theorem render_eq_canonical :
    (∀ x : Float, x ≠ 0 → x ≠ -0 → ∀ separator : Char, (render x separator).toList =
      (canonicalText x).map fun c => if c = '.' then separator else c) ∧
    (∀ x : Float, x.isFinite = true → x ≠ 0 → x ≠ -0 → ∃ q d, value? x = some q ∧
      |q| = valueOfWord (wordOf x) ∧ (∀ other, IsShortest (wordOf x) other ↔ other = d) ∧
      canonicalText x = signText (decide (q < 0)) ++ d.toText) ∧
    (∀ n : ℤ, |n| ≤ 2 ^ 53 →
      (∀ x, value? x = some (n : ℚ) → n ≠ 0 → canonicalText x = (toString n).toList) ∧
      ∀ (separator : Separator) (functions : FunctionTable), ∃ x,
        evaluate (toString n) separator functions = .ok x ∧ value? x = some (n : ℚ) ∧
        render x separator.char = toString n) ∧
    (∀ x : Float, x.isFinite = true → ∃ q, value? x = some q ∧ ∀ separator : Char,
      ((∃ n : ℤ, q = n) → IsWholeText (render x separator).toList) ∧
      ((¬ ∃ n : ℤ, q = n) → IsFractionText separator (render x separator).toList) ∧
      (separator.isDigit = false →
        (IsFractionText separator (render x separator).toList ↔ ¬ ∃ n : ℤ, q = n))) := by
  refine ⟨?replaced, ?shortest, fun n hn => ⟨fun x => canonicalText_of_int hn, ?whole⟩, ?form⟩
  case replaced =>
    intro x hpos hneg separator
    have hne : value? x ≠ some 0 := fun h => (Binary64.eq_zero_of_value? h).elim hpos hneg
    rw [render, String.toList_ofList, renderText_eq_separatedText hne, separatedText]
  case shortest =>
    intro x hfinite hpos hneg
    obtain ⟨q, hq⟩ := Binary64.exists_value? hfinite
    have hne : q ≠ 0 := by
      rintro rfl
      exact (Binary64.eq_zero_of_value? hq).elim hpos hneg
    exact ⟨q, _, hq, (view_of_value? hq hne).2.2.2, isShortest_iff hq hne,
      canonicalText_of_value? hq hne⟩
  case whole =>
    intro separator functions
    obtain ⟨x, hevaluate, hx⟩ := evaluate_toString hn separator functions
    exact ⟨x, hevaluate, hx, render_of_int hn hx separator.char⟩
  case form =>
    intro x hfinite
    obtain ⟨q, hq⟩ := Binary64.exists_value? hfinite
    refine ⟨q, hq, fun separator => ?_⟩
    have hwhole := fun hint => isWholeText_of_int hq hint separator
    have hfraction := fun hint => isFractionText_of_not_int hq hint separator
    rw [render, String.toList_ofList]
    refine ⟨hwhole, hfraction, fun hdigit => ⟨fun htext hint => ?_, hfraction⟩⟩
    exact not_isFractionText_of_isWholeText hdigit (hwhole hint) htext

-- Far above `2 ^ 53` zeros stand for digits that reading back can do without; this is `2 ^ 70`.
example : value? (Float.ofBits 0x4450000000000000) = some 1180591620717411303424 ∧
    canonicalText (Float.ofBits 0x4450000000000000) = "1180591620717411300000".toList := by
  decide +kernel

end Reckoner

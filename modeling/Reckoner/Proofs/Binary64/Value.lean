import Mathlib
import Reckoner.Proofs.Binary64.Bits
import Reckoner.Proofs.Binary64.Nearest

/-!
# Binary64 numbers as rationals

A finite binary64 number is the rational of its word, with its sign. Only zero has two signs.
-/
namespace Reckoner.Binary64

def wordOf (x : Float) : ℕ := x.toBits.toNat % signBit

def withSign (negative : Bool) (q : ℚ) : ℚ :=
  if negative then -q else q

/-- The rational that a finite number is. -/
def value? (x : Float) : Option ℚ :=
  match view x with
  | .finite negative units => some (withSign negative (units / unitsPerOne))
  | _ => none

section Signs

variable {q : ℚ} (negative : Bool)

theorem abs_withSign : |withSign negative q| = |q| := by
  cases negative with
  | false => rfl
  | true => exact abs_neg q

theorem withSign_zero : withSign negative 0 = 0 := by
  cases negative with
  | false => rfl
  | true => exact neg_zero

theorem withSign_neg_iff (h : 0 < q) : withSign negative q < 0 ↔ negative = true := by
  cases negative with
  | false => exact iff_of_false (not_lt.mpr h.le) Bool.false_ne_true
  | true => exact iff_of_true (neg_lt_zero.mpr h) rfl

end Signs

variable {x : Float} {word : ℕ} {q : ℚ}

theorem value?_of_view {negative : Bool} {units : ℕ} (h : view x = .finite negative units) :
    value? x = some (withSign negative (units / unitsPerOne)) := by
  rw [value?, h]

theorem value?_signed_ofWord (h : word < infinityWord) (negative : Bool) :
    value? (signed negative (ofWord word)) = some (withSign negative (valueOfWord word)) :=
  value?_of_view (view_signed_ofWord h negative)

theorem valueOfWord_nonneg (word : ℕ) : 0 ≤ valueOfWord word :=
  div_nonneg (Nat.cast_nonneg _) (Nat.cast_nonneg _)

theorem exists_of_value? (h : value? x = some q) :
    ∃ negative, view x = .finite negative (unitsOfWord (wordOf x)) ∧ wordOf x < infinityWord ∧
      q = withSign negative (valueOfWord (wordOf x)) := by
  cases hview : view x with
  | nan => simp [value?, hview] at h
  | infinite negative => simp [value?, hview] at h
  | finite negative units =>
    obtain ⟨hword, -, rfl⟩ := ofFields_eq_finite_iff.mp hview
    rw [value?_of_view hview] at h
    exact ⟨negative, rfl, hword, (Option.some.inj h).symm⟩

theorem exists_value? (h : x.isFinite = true) : ∃ q, value? x = some q := by
  obtain ⟨negative, units, hview⟩ := isFinite_iff.mp h
  exact ⟨_, value?_of_view hview⟩

/-- Only zero, with either sign, is the rational zero. -/
theorem eq_zero_of_value? (h : value? x = some 0) : x = 0 ∨ x = -0 := by
  obtain ⟨negative, hview, -, hvalue⟩ := exists_of_value? h
  have hzero : valueOfWord (wordOf x) = 0 := by
    rw [← abs_eq_zero, ← abs_withSign negative, ← hvalue, abs_zero]
  have hunits : unitsOfWord (wordOf x) = 0 := by
    rw [valueOfWord, div_eq_zero_iff, or_iff_left unitsPerOne_pos.ne'] at hzero
    exact_mod_cast hzero
  rw [hunits] at hview
  have hx := signed_ofWord hview
  cases negative with
  | false => exact .inl hx.symm
  | true => exact .inr hx.symm

theorem view_of_value? (h : value? x = some q) (hne : q ≠ 0) :
    view x = .finite (decide (q < 0)) (unitsOfWord (wordOf x)) ∧ wordOf x < infinityWord ∧
      0 < valueOfWord (wordOf x) ∧ |q| = valueOfWord (wordOf x) := by
  obtain ⟨negative, hview, hword, rfl⟩ := exists_of_value? h
  have habs : |withSign negative (valueOfWord (wordOf x))| = valueOfWord (wordOf x) :=
    (abs_withSign negative).trans (abs_of_nonneg (valueOfWord_nonneg _))
  have hpos : 0 < valueOfWord (wordOf x) := habs ▸ abs_pos.mpr hne
  refine ⟨?_, hword, hpos, habs⟩
  simp only [hview, withSign_neg_iff negative hpos, Bool.decide_eq_true]

end Reckoner.Binary64

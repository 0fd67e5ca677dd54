import Mathlib
import Reckoner.Proofs.Decimal.Closest

/-!
# Whole numbers in decimals

The shortest decimal of a number has a fraction exactly if the number is not whole. Main statement:
up to `2 ^ 53` the shortest decimal of a whole number has all of its digits.
-/
namespace Reckoner.Decimal

open Binary64 (IsNearest exists_word_of_nat infinityWord isNearest_valueOfWord unitsOfWord
  unitsPerOne unitsPerOne_pos valueOfWord)

variable {word n : ℕ} {g : Grid}

theorem value_of_places {d : Decimal} (h : d.places = 0) : d.value = d.numerator := by
  rw [value, denominator, h]
  exact div_one _

/-- A whole number is on every grid up to that of the ones. -/
theorem places_of_isFirst (h : word < infinityWord) (hfirst : IsFirst word g n)
    (hwhole : ∃ m : ℕ, valueOfWord word = m) : g.places = 0 := by
  obtain ⟨m, hm⟩ := hwhole
  rcases mem_grids_iff.mp hfirst.mem with ⟨hplaces, -⟩ | ⟨hzeros, hplaces, -⟩
  · exact hplaces
  · refine absurd ?_ (hfirst.first 0 ?_ (Int.natCast_nonneg _) m)
    · rw [zpow_zero, mul_one, ← hm]
      exact isNearest_valueOfWord h
    · rw [Grid.exponent, hzeros]
      omega

/-- A number has a fraction in print exactly if it is not whole. -/
theorem places_shortest_iff (h : word < infinityWord) :
    (shortest (unitsOfWord word)).places = 0 ↔ ∃ m : ℕ, valueOfWord word = m := by
  constructor
  · intro hplaces
    have hreads : (shortest (unitsOfWord word)).toWord = word := by
      rw [toWord_shortest, Binary64.wordOfUnits_unitsOfWord h]
    rw [toWord_eq_iff, value_of_places hplaces] at hreads
    exact hreads.exists_nat h
  · intro hwhole
    obtain ⟨g, n, heq, hfirst⟩ := exists_isFirst h
    rw [heq]
    exact places_of_isFirst h hfirst hwhole

/-- Up to `2 ^ 53` a whole number is its own shortest decimal. -/
theorem shortest_of_nat {m : ℕ} (hle : m ≤ 2 ^ 53) : shortest (m * unitsPerOne) = ⟨m, 0⟩ := by
  obtain ⟨word, h, hvalue⟩ := exists_word_of_nat hle
  have hunits : unitsOfWord word = m * unitsPerOne := by
    rw [valueOfWord, div_eq_iff unitsPerOne_pos.ne'] at hvalue
    exact_mod_cast hvalue
  obtain ⟨g, n, heq, hfirst⟩ := exists_isFirst h
  have hplaces := places_of_isFirst h hfirst ⟨m, hvalue⟩
  rw [← hunits, heq, Grid.point, hplaces]
  have hreads := hfirst.hit.readsBack
  rw [← Grid.value_point, value_of_places hplaces] at hreads
  have hbound : valueOfWord word ≤ 2 ^ 53 := by
    rw [hvalue]
    exact_mod_cast hle
  rcases hreads.nat_cases h hbound with hsame | ⟨hlast, hnext⟩
  · have : m = (g.point n).numerator := by exact_mod_cast hvalue.symm.trans hsame
    rw [this]
    rfl
  · -- The successor of `2 ^ 53` is no multiple of ten, and on the ones it is not the closest.
    exfalso
    change n * Nat.pow 10 g.zeros = 2 ^ 53 + 1 at hnext
    cases hzeros : g.zeros with
    | zero =>
      have hstep : g.step = 1 := by
        rw [Grid.step, Grid.exponent, hzeros, hplaces]
        simp
      have hclosest := hfirst.hit.closest m
      rw [hstep, mul_one, mul_one, ← hvalue, sub_self, abs_zero] at hclosest
      have hclose := abs_nonpos_iff.mp (hclosest (isNearest_valueOfWord h))
      rw [hzeros, Nat.pow_eq, pow_zero, mul_one] at hnext
      rw [hlast, hnext] at hclose
      norm_num at hclose
    | succ zeros =>
      rw [hzeros, Nat.pow_eq, pow_succ, ← mul_assoc] at hnext
      omega

theorem toText_shortest_of_nat {m : ℕ} (hle : m ≤ 2 ^ 53) :
    (shortest (m * unitsPerOne)).toText = digits m := by
  rw [shortest_of_nat hle, toText_whole]

end Reckoner.Decimal

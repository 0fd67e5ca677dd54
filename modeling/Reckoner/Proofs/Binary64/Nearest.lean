import Mathlib
import Reckoner.Proofs.Binary64.Words

/-!
# Rounding is to the nearest number

Main statements: the word of a quotient is that of the nearest finite number, of two that are as
near the even one, and infinity from half a quantum above the largest finite number on; and this
describes one word only.
-/
namespace Reckoner.Binary64

/-- The value of the finite number with the given word. -/
def valueOfWord (word : ℕ) : ℚ := unitsOfWord word / unitsPerOne

/-- Half a quantum above the largest finite number. -/
def overflowThreshold : ℚ := 2 ^ 1024 - 2 ^ 970

/-- The word is that of the number nearest to `x`, which has no sign. -/
structure IsNearest (x : ℚ) (word : ℕ) : Prop where
  word_le : word ≤ infinityWord
  infinite_iff : word = infinityWord ↔ overflowThreshold ≤ x
  nearest (h : word < infinityWord) : ∀ other < infinityWord,
    |x - valueOfWord word| ≤ |x - valueOfWord other|
  /-- Of two numbers that are as near, the one with the even word is taken. -/
  even (h : word < infinityWord) : ∀ other < infinityWord, other ≠ word →
    |x - valueOfWord other| = |x - valueOfWord word| → word % 2 = 0

section WholeNumbers

/-- What rounding to whole numbers does: it moves by half at most, and by half only to an even
number. -/
structure IsRounded (x : ℚ) (n : ℕ) : Prop where
  near : |x - n| ≤ 1 / 2
  even (h : |x - n| = 1 / 2) : n % 2 = 0

theorem isRounded_roundEven (num : ℕ) {den : ℕ} (hden : 0 < den) :
    IsRounded (num / den) (roundEven num den) := by
  have hpos : (0 : ℚ) < den := Nat.cast_pos.mpr hden
  obtain ⟨part, hpart⟩ : ∃ part : ℚ, part = (num % den : ℕ) / den := ⟨_, rfl⟩
  have hquotient : (num / den : ℚ) = (num / den : ℕ) + part := by
    rw [hpart, div_eq_iff hpos.ne', add_mul, div_mul_cancel₀ _ hpos.ne']
    exact_mod_cast (Nat.div_add_mod' num den).symm
  have hnonneg : 0 ≤ part := by
    rw [hpart]
    positivity
  have hlt : part < 1 := by
    rw [hpart, div_lt_one hpos]
    exact_mod_cast Nat.mod_lt num hden
  have hbelow : 2 * (num % den) < den ↔ part < 1 / 2 := by
    rw [hpart, div_lt_div_iff₀ hpos two_pos, one_mul, mul_comm]
    exact_mod_cast Iff.rfl
  have habove : den < 2 * (num % den) ↔ 1 / 2 < part := by
    rw [hpart, div_lt_div_iff₀ two_pos hpos, one_mul, mul_comm]
    exact_mod_cast Iff.rfl
  rw [hquotient]
  simp only [roundEven, hbelow, habove]
  split
  case isTrue h =>
    have hmoved : |(num / den : ℕ) + part - (num / den : ℕ)| = part := by
      rw [add_sub_cancel_left, abs_of_nonneg hnonneg]
    constructor <;> rw [hmoved] <;> intros <;> linarith
  case isFalse hnot =>
    split
    case isTrue h =>
      have hmoved : |(num / den : ℕ) + part - (num / den + 1 : ℕ)| = 1 - part := by
        rw [Nat.cast_add, Nat.cast_one, add_sub_add_left_eq_sub, abs_sub_comm,
          abs_of_nonneg (by linarith)]
      constructor <;> rw [hmoved] <;> intros <;> linarith
    case isFalse hnot' =>
      obtain rfl : part = 1 / 2 := by linarith
      have hparity : (num / den) % 2 = 0 ∨ (num / den) % 2 = 1 := Nat.mod_two_eq_zero_or_one _
      refine ⟨?_, fun _ => by omega⟩
      rw [Nat.cast_add, add_sub_add_left_eq_sub]
      rcases hparity with h | h <;> rw [h] <;> norm_num

variable {x : ℚ} {n k : ℕ}

theorem one_le_abs_add_abs (x : ℚ) (hne : k ≠ n) : 1 ≤ |x - n| + |x - k| := by
  have happart : (1 : ℤ) ≤ |(n : ℤ) - k| := Int.one_le_abs (by omega)
  calc (1 : ℚ) ≤ |(n : ℚ) - k| := by exact_mod_cast happart
    _ = |(n - x) + (x - k)| := by rw [sub_add_sub_cancel]
    _ ≤ |n - x| + |x - k| := abs_add_le _ _
    _ = |x - n| + |x - k| := by rw [abs_sub_comm]

theorem IsRounded.nearest (h : IsRounded x n) (k : ℕ) : |x - n| ≤ |x - k| := by
  by_cases hk : k = n
  · rw [hk]
  · have := one_le_abs_add_abs x hk
    have := h.near
    linarith

theorem IsRounded.even_of_eq (h : IsRounded x n) (hne : k ≠ n) (heq : |x - k| = |x - n|) :
    n % 2 = 0 := by
  have := one_le_abs_add_abs x hne
  have := h.near
  exact h.even (by linarith)

theorem IsRounded.le_of_le (h : IsRounded x n) (hle : k ≤ x) : k ≤ n := by
  have := (abs_le.mp h.near).2
  have : (k : ℚ) < n + 1 := by linarith
  exact Nat.lt_succ_iff.mp (by exact_mod_cast this)

theorem IsRounded.le_of_lt (h : IsRounded x n) (hlt : x < k) : n ≤ k := by
  have := (abs_le.mp h.near).1
  have : (n : ℚ) < k + 1 := by linarith
  exact Nat.lt_succ_iff.mp (by exact_mod_cast this)

/-- In front of an even number the middle is rounded up. -/
theorem IsRounded.le_iff (h : IsRounded x n) (hk : k % 2 = 0) : k ≤ n ↔ k - 1 / 2 ≤ x := by
  constructor
  · intro hle
    have := (abs_le.mp h.near).1
    have : (k : ℚ) ≤ n := by exact_mod_cast hle
    linarith
  · intro hle
    by_contra hlt
    have hn : (n : ℚ) + 1 ≤ k := by exact_mod_cast Nat.lt_of_not_le hlt
    have hnear := (abs_le.mp h.near).2
    have heven := h.even (by rw [abs_of_nonneg] <;> linarith)
    have : n + 1 = k := by exact_mod_cast (by linarith : (n : ℚ) + 1 = k)
    omega

end WholeNumbers

section Units

/-- Units are counted in quanta of `2 ^ scale` units, and the count is rounded. Above the smallest
scale it has its leading bit. -/
structure IsScaled (units : ℚ) (scale significand : ℕ) : Prop where
  rounded : IsRounded (units / 2 ^ scale) significand
  leading : scale = 0 ∨ fractions ≤ units / 2 ^ scale
  fits : units / 2 ^ scale < 2 * fractions

theorem isScaled_wordOfUnits (num : ℕ) {den : ℕ} (hden : 0 < den) :
    ∃ scale significand, IsScaled (num / den) scale significand ∧
      wordOfUnits num den = min (scale * fractions + significand) infinityWord := by
  have hpos : (0 : ℚ) < den := Nat.cast_pos.mpr hden
  have hquantum : (0 : ℚ) < 2 ^ ((num / den).log2 - 52) := by positivity
  obtain ⟨hleading, hfits⟩ := scale_bounds (num / den)
  refine ⟨(num / den).log2 - 52, _, ⟨?_, hleading.imp_right fun h => ?_, ?_⟩, rfl⟩
  · have := isRounded_roundEven num (Nat.mul_pos hden (Nat.two_pow_pos ((num / den).log2 - 52)))
    rwa [Nat.cast_mul, Nat.cast_pow, Nat.cast_ofNat, ← div_div] at this
  · rw [Nat.le_div_iff_mul_le hden, Nat.pow_eq] at h
    rw [le_div_iff₀ hquantum, le_div_iff₀ hpos]
    exact_mod_cast h
  · rw [Nat.div_lt_iff_lt_mul hden, Nat.pow_eq] at hfits
    rw [div_lt_iff₀ hquantum, div_lt_iff₀ hpos]
    exact_mod_cast hfits

theorem strictMono_unitsOfWord : StrictMono unitsOfWord :=
  strictMono_nat_of_lt_succ unitsOfWord_lt_succ

theorem abs_sub_quanta (units count : ℚ) (scale : ℕ) :
    |units - count * 2 ^ scale| = |units / 2 ^ scale - count| * 2 ^ scale := by
  have hquantum : (0 : ℚ) < 2 ^ scale := by positivity
  rw [← abs_of_pos hquantum, ← abs_mul, sub_mul, abs_of_pos hquantum,
    div_mul_cancel₀ _ hquantum.ne']

namespace IsScaled

variable {units : ℚ} {scale significand : ℕ} (h : IsScaled units scale significand)
include h

theorem significand_le : significand ≤ 2 * fractions :=
  h.rounded.le_of_lt (by exact_mod_cast h.fits)

theorem leading_bit : scale = 0 ∨ fractions ≤ significand :=
  h.leading.imp_right h.rounded.le_of_le

theorem unitsOfWord_eq :
    (unitsOfWord (scale * fractions + significand) : ℚ) = significand * 2 ^ scale := by
  rw [unitsOfWord_of_scale h.significand_le h.leading_bit, Nat.pow_eq]
  push_cast
  rfl

/-- A number without the leading bit is farther than the least count that has it. -/
theorem lt_abs_sub {other : ℕ} (hscale : scale ≠ 0)
    (hother : unitsOfWord other < fractions * Nat.pow 2 scale) :
    |units - significand * 2 ^ scale| < |units - unitsOfWord other| := by
  have hquantum : (0 : ℚ) < 2 ^ scale := by positivity
  have hleading := h.leading.resolve_left hscale
  rw [le_div_iff₀ hquantum] at hleading
  have hsmall : (unitsOfWord other : ℚ) < fractions * 2 ^ scale := by exact_mod_cast hother
  calc |units - significand * 2 ^ scale|
      = |units / 2 ^ scale - significand| * 2 ^ scale := abs_sub_quanta _ _ _
    _ ≤ |units / 2 ^ scale - fractions| * 2 ^ scale :=
      mul_le_mul_of_nonneg_right (h.rounded.nearest fractions) hquantum.le
    _ = |units - fractions * 2 ^ scale| := (abs_sub_quanta _ _ _).symm
    _ < |units - unitsOfWord other| := by
      rw [abs_of_nonneg (by linarith), abs_of_nonneg (by linarith)]
      linarith

/-- Every other number is a count of quanta too, or it is farther. -/
theorem count_or_lt (other : ℕ) :
    (∃ count : ℕ, (unitsOfWord other : ℚ) = count * 2 ^ scale) ∨
      |units - significand * 2 ^ scale| < |units - unitsOfWord other| := by
  by_cases hscale : scale = 0
  · exact .inl ⟨unitsOfWord other, by simp [hscale]⟩
  · rcases unitsOfWord_multiple_or_lt other scale with ⟨count, hcount⟩ | hlt
    · exact .inl ⟨count, by exact_mod_cast hcount⟩
    · exact .inr (h.lt_abs_sub hscale hlt)

theorem nearest (other : ℕ) :
    |units - unitsOfWord (scale * fractions + significand)| ≤ |units - unitsOfWord other| := by
  rw [h.unitsOfWord_eq]
  rcases h.count_or_lt other with ⟨count, hcount⟩ | hlt
  · rw [hcount, abs_sub_quanta, abs_sub_quanta]
    exact mul_le_mul_of_nonneg_right (h.rounded.nearest count) (by positivity)
  · exact hlt.le

theorem even {other : ℕ} (hne : other ≠ scale * fractions + significand)
    (heq : |units - unitsOfWord other| =
      |units - unitsOfWord (scale * fractions + significand)|) :
    (scale * fractions + significand) % 2 = 0 := by
  have hunits := h.unitsOfWord_eq
  rw [hunits] at heq
  rcases h.count_or_lt other with ⟨count, hcount⟩ | hlt
  · have hother : count ≠ significand := by
      rintro rfl
      exact hne (strictMono_unitsOfWord.injective (by exact_mod_cast hcount.trans hunits.symm))
    rw [hcount, abs_sub_quanta, abs_sub_quanta] at heq
    have heven := h.rounded.even_of_eq hother (mul_right_cancel₀ (by positivity) heq)
    rw [Nat.add_mod, Nat.mul_mod, heven]
    simp [fractions]
  · exact absurd heq hlt.ne'

/-- The count reaches infinity from the middle between the last finite count and it on. -/
theorem infinite_iff :
    infinityWord ≤ scale * fractions + significand ↔
      (2 * fractions - 1 / 2) * 2 ^ 2045 ≤ units := by
  have hquantum : (0 : ℚ) < 2 ^ scale := by positivity
  have hfractions : (1 : ℚ) ≤ fractions := by exact_mod_cast fractions_pos
  have hword : infinityWord = 2047 * fractions := rfl
  have hsignificand := h.significand_le
  rcases lt_trichotomy scale 2045 with hlt | rfl | hgt
  · have hscale : scale * fractions ≤ 2044 * fractions :=
      Nat.mul_le_mul_right _ (Nat.le_of_lt_succ hlt)
    have hpow : (2 : ℚ) ^ scale * 2 ≤ 2 ^ 2045 := by
      rw [← pow_succ]
      exact pow_le_pow_right₀ one_le_two hlt
    have hfits := h.fits
    rw [div_lt_iff₀ hquantum] at hfits
    have := fractions_pos
    refine iff_of_false (by omega) (not_le.mpr ?_)
    calc units < (fractions : ℚ) * (2 ^ scale * 2) := by linarith
      _ ≤ (fractions : ℚ) * 2 ^ 2045 := by gcongr
      _ ≤ (2 * fractions - 1 / 2) * 2 ^ 2045 := by gcongr; linarith
  · have hcount : infinityWord ≤ 2045 * fractions + significand ↔ 2 * fractions ≤ significand := by
      omega
    rw [hcount, h.rounded.le_iff (Nat.mul_mod_right 2 fractions), le_div_iff₀ hquantum,
      Nat.cast_mul, Nat.cast_ofNat]
  · have hzero : scale ≠ 0 := by omega
    have hscale : 2046 * fractions ≤ scale * fractions := Nat.mul_le_mul_right _ hgt
    have hleading := h.leading_bit.resolve_left hzero
    have hpow : (2 : ℚ) ^ 2045 * 2 ≤ 2 ^ scale := by
      rw [← pow_succ]
      exact pow_le_pow_right₀ one_le_two hgt
    have hunits := h.leading.resolve_left hzero
    rw [le_div_iff₀ hquantum] at hunits
    refine iff_of_true (by omega) ?_
    calc (2 * fractions - 1 / 2) * (2 : ℚ) ^ 2045
        ≤ 2 * fractions * 2 ^ 2045 := by gcongr; linarith
      _ = (fractions : ℚ) * (2 ^ 2045 * 2) := by rw [mul_comm 2, mul_assoc, mul_comm 2]
      _ ≤ (fractions : ℚ) * 2 ^ scale := by gcongr
      _ ≤ units := hunits

end IsScaled

theorem cast_two_pow (n : ℕ) : (Nat.pow 2 n : ℕ) = (2 : ℚ) ^ n := by
  rw [Nat.pow_eq, Nat.cast_pow, Nat.cast_ofNat]

theorem cast_unitsPerOne : (unitsPerOne : ℚ) = 2 ^ 1074 := by
  unfold unitsPerOne
  generalize 1074 = n
  exact cast_two_pow n

theorem unitsPerOne_pos : (0 : ℚ) < unitsPerOne := by
  rw [cast_unitsPerOne]
  exact pow_pos two_pos _

theorem overflowThreshold_units :
    overflowThreshold * unitsPerOne = (2 * fractions - 1 / 2) * 2 ^ 2045 := by
  have hfractions : (fractions : ℚ) = 2 ^ 52 := cast_two_pow 52
  have hlow : (2 : ℚ) ^ 1024 = 2 ^ 54 * 2 ^ 970 := pow_add 2 54 970
  have hhigh : (2 : ℚ) ^ 2045 = 2 ^ 970 * 2 ^ 1074 * 2 := by
    rw [← pow_add]
    exact pow_succ 2 2044
  rw [overflowThreshold, cast_unitsPerOne, hfractions, hlow, hhigh]
  generalize (2 : ℚ) ^ 970 = low
  generalize (2 : ℚ) ^ 1074 = unit
  ring

theorem abs_sub_valueOfWord (x : ℚ) (word : ℕ) :
    |x - valueOfWord word| = |x * unitsPerOne - unitsOfWord word| / unitsPerOne := by
  have hpos := unitsPerOne_pos
  rw [eq_div_iff hpos.ne', valueOfWord]
  nth_rewrite 2 [← abs_of_pos hpos]
  rw [← abs_mul, sub_mul, div_mul_cancel₀ _ hpos.ne']

end Units

/-- The word of a quotient is that of the nearest number. -/
theorem isNearest_nearestWord (num : ℕ) {den : ℕ} (hden : 0 < den) :
    IsNearest (num / den) (nearestWord num den) := by
  obtain ⟨scale, significand, hscaled, hword⟩ := isScaled_wordOfUnits (num * unitsPerOne) hden
  rw [Nat.cast_mul, mul_div_right_comm] at hscaled
  rw [nearestWord, hword]
  have hfinite (h : min (scale * fractions + significand) infinityWord < infinityWord) :
      min (scale * fractions + significand) infinityWord = scale * fractions + significand :=
    min_eq_left (by omega)
  refine ⟨min_le_right _ _, ?_, fun h other _ => ?_, fun h other _ hne heq => ?_⟩
  · rw [min_eq_right_iff, hscaled.infinite_iff, ← overflowThreshold_units,
      mul_le_mul_iff_left₀ unitsPerOne_pos]
  · rw [hfinite h, abs_sub_valueOfWord, abs_sub_valueOfWord]
    exact div_le_div_of_nonneg_right (hscaled.nearest other) unitsPerOne_pos.le
  · rw [hfinite h] at hne heq ⊢
    rw [abs_sub_valueOfWord, abs_sub_valueOfWord,
      div_left_inj' unitsPerOne_pos.ne'] at heq
    exact hscaled.even hne heq

/-- Between two even words stands a word, whose number is nearer than both. -/
theorem exists_nearer {x : ℚ} {word other : ℕ} (hlt : word + 1 < other)
    (heq : |x - valueOfWord word| = |x - valueOfWord other|) :
    |x - valueOfWord (word + 1)| < |x - valueOfWord word| := by
  have hmono {a b : ℕ} (h : a < b) : valueOfWord a < valueOfWord b :=
    div_lt_div_of_pos_right (by exact_mod_cast strictMono_unitsOfWord h) unitsPerOne_pos
  have hbelow := hmono word.lt_succ_self
  have habove := hmono hlt
  -- The number that is as near to two others is their middle.
  have hmiddle : 2 * x = valueOfWord word + valueOfWord other := by
    rcases abs_eq_abs.mp heq with h | h <;> linarith
  rw [abs_of_pos (a := x - valueOfWord word) (by linarith), abs_lt]
  constructor <;> linarith

theorem IsNearest.unique {x : ℚ} {word other : ℕ} (h : IsNearest x word)
    (hother : IsNearest x other) : word = other := by
  wlog hlt : word < other generalizing word other
  · by_contra hne
    exact hne (this hother h (by omega)).symm
  exfalso
  have hfinite : word < infinityWord := hlt.trans_le hother.word_le
  have hfinite' : other < infinityWord :=
    hother.word_le.lt_of_ne fun hinfinite =>
      hfinite.ne (h.infinite_iff.mpr (hother.infinite_iff.mp hinfinite))
  have heq := le_antisymm (h.nearest hfinite other hfinite') (hother.nearest hfinite' word hfinite)
  have heven := h.even hfinite other hfinite' hlt.ne' heq.symm
  have heven' := hother.even hfinite' word hfinite hlt.ne heq
  have hnearer := exists_nearer (by omega) heq
  exact absurd (h.nearest hfinite (word + 1) (by omega)) (not_le.mpr hnearer)

end Reckoner.Binary64

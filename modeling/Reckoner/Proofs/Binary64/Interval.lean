import Mathlib
import Reckoner.Proofs.Binary64.Nearest

/-!
# What rounds to one number

The rationals to which one finite number is nearest lie side by side around it, and reach no farther
than half a quantum above it. Main statement: the whole numbers up to `2 ^ 53` are numbers, so no
other whole number rounds to one of them, but for the one that follows `2 ^ 53`.
-/
namespace Reckoner.Binary64

variable {word other : ℕ} {x y a b p q : ℚ}

theorem strictMono_valueOfWord : StrictMono valueOfWord := fun _ _ h =>
  div_lt_div_of_pos_right (by exact_mod_cast strictMono_unitsOfWord h) unitsPerOne_pos

theorem abs_sub_le_iff_of_lt (h : p < q) : |y - p| ≤ |y - q| ↔ 2 * y ≤ p + q := by
  rw [← sq_le_sq]
  constructor
  · intro hle
    nlinarith only [hle, h]
  · intro hle
    nlinarith only [hle, h]

theorem abs_sub_le_iff_of_gt (h : q < p) : |y - p| ≤ |y - q| ↔ p + q ≤ 2 * y := by
  rw [← sq_le_sq]
  constructor
  · intro hle
    nlinarith only [hle, h]
  · intro hle
    nlinarith only [hle, h]

theorem isNearest_valueOfWord (h : word < infinityWord) : IsNearest (valueOfWord word) word := by
  have hpos : 0 < unitsPerOne := by exact_mod_cast unitsPerOne_pos
  have hword : nearestWord (unitsOfWord word) unitsPerOne = word := by
    rw [nearestWord]
    nth_rewrite 2 [← Nat.one_mul unitsPerOne]
    rw [wordOfUnits_mul_mul hpos, wordOfUnits_unitsOfWord h]
  have hnearest := isNearest_nearestWord (unitsOfWord word) hpos
  rwa [hword] at hnearest

/-- What lies between rationals that round to a number rounds to it too. -/
theorem IsNearest.between (ha : IsNearest a word) (hb : IsNearest b word) (hay : a ≤ y)
    (hyb : y ≤ b) : IsNearest y word := by
  refine ⟨ha.word_le, ?_, fun h other hother => ?_, fun h other hother hne heq => ?_⟩
  · exact ⟨fun h => (ha.infinite_iff.mp h).trans hay, fun h => hb.infinite_iff.mpr (h.trans hyb)⟩
  · rcases lt_trichotomy word other with hlt | rfl | hgt
    · have hvalue := strictMono_valueOfWord hlt
      have := (abs_sub_le_iff_of_lt hvalue).mp (hb.nearest h other hother)
      exact (abs_sub_le_iff_of_lt hvalue).mpr (by linarith)
    · exact le_refl _
    · have hvalue := strictMono_valueOfWord hgt
      have := (abs_sub_le_iff_of_gt hvalue).mp (ha.nearest h other hother)
      exact (abs_sub_le_iff_of_gt hvalue).mpr (by linarith)
  · -- The middle of two numbers is the last rational that rounds to one of them.
    rcases lt_or_gt_of_ne hne with hlt | hgt
    · have hvalue := strictMono_valueOfWord hlt
      have hmiddle := (abs_sub_le_iff_of_lt hvalue).mp heq.le
      have := (abs_sub_le_iff_of_gt hvalue).mp (ha.nearest h other hother)
      obtain rfl : a = y := by linarith
      exact ha.even h other hother hne heq
    · have hvalue := strictMono_valueOfWord hgt
      have hmiddle := (abs_sub_le_iff_of_gt hvalue).mp heq.le
      have := (abs_sub_le_iff_of_lt hvalue).mp (hb.nearest h other hother)
      obtain rfl : b = y := by linarith
      exact hb.even h other hother hne heq

theorem IsNearest.eq_valueOfWord (h : IsNearest (valueOfWord other) word)
    (hword : word < infinityWord) (hother : other < infinityWord) :
    valueOfWord other = valueOfWord word := by
  have hnear := h.nearest hword other hother
  rw [sub_self, abs_zero] at hnear
  exact sub_eq_zero.mp (abs_nonpos_iff.mp hnear)

/-- The scale and the significand of the largest finite number. -/
theorem eq_of_last {scale significand : ℕ}
    (hlast : scale * fractions + significand + 1 = infinityWord)
    (hlt : significand < 2 * fractions) (hleading : scale = 0 ∨ fractions ≤ significand) :
    scale = 2045 ∧ significand + 1 = 2 * fractions := by
  have hpos := fractions_pos
  have hinfinity : infinityWord = 2047 * fractions := rfl
  have hscale : scale = 2045 := by
    rcases hleading with rfl | hle
    · omega
    · have hlo : scale * fractions < 2046 * fractions := by omega
      have hhi : 2044 * fractions < scale * fractions := by omega
      have := Nat.lt_of_mul_lt_mul_right hlo
      have := Nat.lt_of_mul_lt_mul_right hhi
      omega
  subst hscale
  omega

/-- What rounds to a number of the given scale is at most half a quantum above it. -/
theorem IsNearest.le_middle {scale significand : ℕ} (h : IsNearest x word)
    (hword : word < infinityWord) (hsplit : word = scale * fractions + significand)
    (hlt : significand < 2 * fractions) (hleading : scale = 0 ∨ fractions ≤ significand) :
    x * unitsPerOne ≤ (significand + 1 / 2) * 2 ^ scale := by
  have hunits : (unitsOfWord word : ℚ) = significand * 2 ^ scale := by
    rw [hsplit, unitsOfWord_of_scale hlt.le hleading, Nat.cast_mul, cast_two_pow]
  have hnext : (unitsOfWord (word + 1) : ℚ) = (significand + 1) * 2 ^ scale := by
    rw [hsplit, add_assoc, unitsOfWord_of_scale hlt (hleading.imp_right Nat.le_succ_of_le),
      Nat.cast_mul, cast_two_pow, Nat.cast_succ]
  rcases Nat.eq_or_lt_of_le (Nat.succ_le_of_lt hword) with hlast | hinner
  · -- Above the largest finite number the threshold of infinity takes the place of the middle.
    have hbelow : x < overflowThreshold := by
      rw [← not_le, ← h.infinite_iff]
      exact hword.ne
    rw [hsplit] at hlast
    obtain ⟨hscale, hsignificand⟩ := eq_of_last hlast hlt hleading
    have hcast : (significand : ℚ) = 2 * fractions - 1 := by
      have : (significand + 1 : ℚ) = 2 * fractions := by exact_mod_cast hsignificand
      linarith
    calc x * unitsPerOne
        ≤ overflowThreshold * unitsPerOne := mul_le_mul_of_nonneg_right hbelow.le unitsPerOne_pos.le
      _ = (2 * fractions - 1 / 2) * 2 ^ 2045 := overflowThreshold_units
      _ = (significand + 1 / 2) * 2 ^ scale := by
        rw [hscale, hcast]
        generalize (2 : ℚ) ^ 2045 = quantum
        ring
  · have hmiddle := (abs_sub_le_iff_of_lt (strictMono_valueOfWord word.lt_succ_self)).mp
      (h.nearest hword (word + 1) hinner)
    rw [valueOfWord, valueOfWord, hunits, hnext, ← add_div, le_div_iff₀ unitsPerOne_pos] at hmiddle
    linarith

section WholeNumbers

/-- Counts of a quantum that need no more than 53 bits are numbers. -/
theorem exists_word {count scale : ℕ} (hcount : count ≤ 2 * fractions) (hscale : scale ≤ 2044) :
    ∃ word < infinityWord, unitsOfWord word = count * Nat.pow 2 scale := by
  induction scale generalizing count with
  | zero =>
    refine ⟨0 * fractions + count, ?_, unitsOfWord_of_scale hcount (.inl rfl)⟩
    exact Nat.lt_of_le_of_lt (Nat.add_le_add_left hcount _) (by decide)
  | succ scale ih =>
    rcases Nat.lt_or_ge count fractions with hlt | hge
    · obtain ⟨word, hword, hunits⟩ := ih (Nat.mul_le_mul_left 2 hlt.le) (Nat.le_of_succ_le hscale)
      refine ⟨word, hword, hunits.trans ?_⟩
      rw [Nat.pow_eq, Nat.pow_eq, pow_succ]
      ring
    · refine ⟨(scale + 1) * fractions + count, ?_, unitsOfWord_of_scale hcount (.inr hge)⟩
      have hinfinity : infinityWord = 2047 * fractions := rfl
      have hscale := Nat.mul_le_mul_right fractions hscale
      have := fractions_pos
      omega

theorem exists_word_of_units (count scale : ℕ) {x : ℚ} (hcount : count ≤ 2 * fractions)
    (hscale : scale ≤ 2044) (hx : x * unitsPerOne = count * 2 ^ scale) :
    ∃ word < infinityWord, valueOfWord word = x := by
  obtain ⟨word, hword, hunits⟩ := exists_word hcount hscale
  refine ⟨word, hword, ?_⟩
  rw [valueOfWord, hunits, Nat.cast_mul, cast_two_pow, ← hx, mul_div_cancel_right₀]
  exact unitsPerOne_pos.ne'

theorem two_mul_fractions : 2 * fractions = 2 ^ 53 := by decide

theorem exists_word_of_nat {n : ℕ} (h : n ≤ 2 ^ 53) :
    ∃ word < infinityWord, valueOfWord word = n := by
  rw [← two_mul_fractions] at h
  refine exists_word_of_units n 1074 h (by decide) ?_
  rw [cast_unitsPerOne]

/-- Behind them, every other whole number is one. -/
theorem exists_word_behind : ∃ word < infinityWord, valueOfWord word = 2 ^ 53 + 2 := by
  refine exists_word_of_units (fractions + 1) 1075 (by decide) (by decide) ?_
  have hfractions : (fractions : ℚ) = 2 ^ 52 := cast_two_pow 52
  rw [cast_unitsPerOne, pow_succ _ 1074, Nat.cast_add, hfractions]
  generalize (2 : ℚ) ^ 1074 = unit
  push_cast
  ring

variable {n k : ℕ}

/-- A number up to `2 ^ 53` that a whole number rounds to is this whole number, or its
predecessor `2 ^ 53`. -/
theorem IsNearest.nat_cases (h : IsNearest k word) (hword : word < infinityWord)
    (hle : valueOfWord word ≤ 2 ^ 53) :
    valueOfWord word = k ∨ valueOfWord word = 2 ^ 53 ∧ k = 2 ^ 53 + 1 := by
  rcases Nat.lt_or_ge (2 ^ 53) k with hlt | hge
  · right
    obtain ⟨last, hlast, hvalue⟩ := exists_word_of_nat (n := 2 ^ 53) le_rfl
    obtain ⟨behind, hbehind, hvalue'⟩ := exists_word_behind
    have hcast : (2 : ℚ) ^ 53 < k := by exact_mod_cast hlt
    rw [Nat.cast_pow, Nat.cast_ofNat] at hvalue
    have hfull : valueOfWord word = 2 ^ 53 := by
      have hnear := h.nearest hword last hlast
      rw [hvalue, abs_of_nonneg (by linarith), abs_of_nonneg (by linarith)] at hnear
      linarith
    have hnear := h.nearest hword behind hbehind
    rw [hfull, hvalue', abs_sub_le_iff_of_lt (by linarith)] at hnear
    have hupper : k ≤ 2 ^ 53 + 1 := by
      have : (k : ℚ) ≤ 2 ^ 53 + 1 := by linarith
      exact_mod_cast this
    exact ⟨hfull, le_antisymm hupper hlt⟩
  · left
    obtain ⟨own, hown, hvalue⟩ := exists_word_of_nat hge
    rw [← hvalue] at h ⊢
    exact (h.eq_valueOfWord hword hown).symm

/-- Only a whole number has whole numbers round to it. -/
theorem IsNearest.exists_nat (h : IsNearest k word) (hword : word < infinityWord) :
    ∃ n : ℕ, valueOfWord word = n := by
  obtain ⟨scale, significand, hsplit, hlt, hleading⟩ := exists_scale word
  have hunits : unitsOfWord word = significand * Nat.pow 2 scale := by
    rw [hsplit, unitsOfWord_of_scale hlt.le hleading]
  rcases Nat.lt_or_ge scale 1074 with hsmall | hlarge
  · -- Below the scale of ones there is no number above `2 ^ 53`.
    have hle : valueOfWord word ≤ 2 ^ 53 := by
      have hsignificand : significand ≤ 2 ^ 53 := by
        rw [← two_mul_fractions]
        exact hlt.le
      rw [valueOfWord, hunits, Nat.cast_mul, cast_two_pow, cast_unitsPerOne,
        div_le_iff₀ (pow_pos two_pos 1074)]
      refine mul_le_mul ?_ ?_ (by positivity) (by positivity)
      · exact_mod_cast hsignificand
      · exact pow_le_pow_right₀ one_le_two hsmall.le
    rcases h.nat_cases hword hle with heq | ⟨heq, -⟩
    · exact ⟨k, heq⟩
    · exact ⟨2 ^ 53, by exact_mod_cast heq⟩
  · obtain ⟨more, rfl⟩ := Nat.exists_eq_add_of_le hlarge
    refine ⟨significand * 2 ^ more, ?_⟩
    have hunit : (0 : ℚ) < 2 ^ 1074 := pow_pos two_pos 1074
    rw [valueOfWord, hunits, Nat.cast_mul, cast_two_pow, cast_unitsPerOne, pow_add,
      div_eq_iff hunit.ne', Nat.cast_mul, Nat.cast_pow, Nat.cast_ofNat, mul_assoc,
      mul_comm (2 ^ more)]

end WholeNumbers

end Reckoner.Binary64

import Mathlib
import Reckoner.Proofs.Decimal.Grids

/-!
# The shortest and closest decimal

Of all decimals that read back as a number, one has the fewest digits, of these is the closest to
the number, and of two that are as close is the upper one. Main statement: the decimal that is
printed is this one.
-/
namespace Reckoner.Decimal

open Binary64 (IsNearest infinityWord isNearest_valueOfWord unitsOfWord unitsPerOne
  unitsPerOne_pos valueOfWord)

/-- So many digits are enough to write the number, wherever its point stands. -/
def HasDigits (count : ℕ) (y : ℚ) : Prop :=
  ∃ m : ℕ, m < 10 ^ count ∧ ∃ k : ℤ, y = m * 10 ^ k

/-- Every number of digits that is enough for the one is enough for the other. -/
def AsShort (y z : ℚ) : Prop :=
  ∀ count, HasDigits count z → HasDigits count y

/-- The decimal that stands for the finite number with the given word in print. -/
structure IsShortest (word : ℕ) (d : Decimal) : Prop where
  readsBack : IsNearest d.value word
  fewest (y : ℚ) (hy : IsNearest y word) : AsShort d.value y
  closest (y : ℚ) (hy : IsNearest y word) (hshort : AsShort y d.value) :
    |valueOfWord word - d.value| ≤ |valueOfWord word - y|
  upper (y : ℚ) (hy : IsNearest y word) (hshort : AsShort y d.value)
    (heq : |valueOfWord word - y| = |valueOfWord word - d.value|) : y ≤ d.value
  trimmed : d.places = 0 ∨ d.numerator % 10 ≠ 0

section Digits

variable {a b : ℕ} {y : ℚ}

theorem HasDigits.mono (h : HasDigits a y) (hle : a ≤ b) : HasDigits b y := by
  obtain ⟨m, hm, k, rfl⟩ := h
  exact ⟨m, hm.trans_le (Nat.pow_le_pow_right (by decide) hle), k, rfl⟩

theorem hasDigits_power (k : ℤ) : HasDigits 1 (10 ^ k) :=
  ⟨1, by decide, k, by rw [Nat.cast_one, one_mul]⟩

theorem ten_zpow_pos (k : ℤ) : (0 : ℚ) < 10 ^ k := zpow_pos (by norm_num) k

theorem ten_zpow_le_iff {j k : ℤ} : (10 : ℚ) ^ j ≤ 10 ^ k ↔ j ≤ k :=
  zpow_le_zpow_iff_right₀ (by norm_num)

theorem ten_zpow_lt_iff {j k : ℤ} : (10 : ℚ) ^ j < 10 ^ k ↔ j < k :=
  zpow_lt_zpow_iff_right₀ (by norm_num)

theorem ten_zpow_neg (n : ℕ) : (10 : ℚ) ^ (-n : ℤ) = ((Nat.pow 10 n : ℕ) : ℚ)⁻¹ := by
  rw [zpow_neg, zpow_natCast, Nat.pow_eq, Nat.cast_pow, Nat.cast_ofNat]

theorem ten_zpow_eq {j k : ℤ} (h : j ≤ k) : (10 : ℚ) ^ k = (10 ^ (k - j).toNat : ℕ) * 10 ^ j := by
  rw [Nat.cast_pow, Nat.cast_ofNat, ← zpow_natCast, Int.toNat_of_nonneg (sub_nonneg.mpr h),
    ← zpow_add₀ (by norm_num), sub_add_cancel]

/-- What ends no farther to the right than a grid is on the grid. -/
theorem exists_point {g : Grid} {k : ℤ} (hle : g.exponent ≤ k) (m : ℕ) :
    ∃ j : ℕ, (m : ℚ) * 10 ^ k = j * g.step :=
  ⟨m * 10 ^ (k - g.exponent).toNat, by rw [ten_zpow_eq hle, Grid.step, Nat.cast_mul, mul_assoc]⟩

theorem mul_ten_zpow_lt {m count : ℕ} (h : m < 10 ^ count) (k : ℤ) :
    (m : ℚ) * 10 ^ k < 10 ^ (count + k) := by
  rw [zpow_add₀ (by norm_num), zpow_natCast]
  refine mul_lt_mul_of_pos_right ?_ (ten_zpow_pos k)
  exact_mod_cast h

theorem ten_zpow_le_mul {m : ℕ} (h : m ≠ 0) (k : ℤ) : (10 : ℚ) ^ k ≤ m * 10 ^ k := by
  refine le_mul_of_one_le_left (ten_zpow_pos k).le ?_
  exact_mod_cast Nat.one_le_iff_ne_zero.mpr h

end Digits

section Uniqueness

variable {word : ℕ} {d other : Decimal}

/-- Decimals of one value are the same once their fractions are trimmed. -/
theorem eq_of_value_eq (h : d.value = other.value) (hd : d.places = 0 ∨ d.numerator % 10 ≠ 0)
    (hother : other.places = 0 ∨ other.numerator % 10 ≠ 0) : d = other := by
  wlog hle : d.places ≤ other.places generalizing d other
  · exact (this h.symm hother hd (by omega)).symm
  obtain ⟨more, hmore⟩ := Nat.exists_eq_add_of_le hle
  have hpos : (10 : ℚ) ^ d.places ≠ 0 := pow_ne_zero _ (by norm_num)
  have hnumerator : d.numerator * 10 ^ more = other.numerator := by
    rw [value, value, denominator, denominator, Nat.pow_eq, Nat.pow_eq, hmore, pow_add] at h
    push_cast at h
    field_simp at h
    exact_mod_cast h
  cases more with
  | zero =>
    rw [pow_zero, mul_one] at hnumerator
    cases d
    cases other
    simp_all
  | succ more =>
    rw [pow_succ, ← mul_assoc] at hnumerator
    omega

theorem IsShortest.unique (h : IsShortest word d) (hother : IsShortest word other) : d = other := by
  have hshort := h.fewest other.value hother.readsBack
  have hshort' := hother.fewest d.value h.readsBack
  have heq := le_antisymm (h.closest other.value hother.readsBack hshort')
    (hother.closest d.value h.readsBack hshort)
  have hvalue := le_antisymm (hother.upper d.value h.readsBack hshort heq)
    (h.upper other.value hother.readsBack hshort' heq.symm)
  exact eq_of_value_eq hvalue h.trimmed hother.trimmed

end Uniqueness

section Powers

variable {word : ℕ} {k : ℤ}

/-- The smallest number is not quite half a unit in the 323rd place. -/
theorem unit_bounds {places : ℕ} (hplaces : places = 323) :
    2 < (10 : ℚ) ^ (-places : ℤ) * unitsPerOne ∧
      (10 : ℚ) ^ (-places : ℤ) * unitsPerOne < 21 / 10 := by
  have hlow : 2 * Nat.pow 10 places < unitsPerOne := by
    rw [hplaces]
    decide +kernel
  have hhigh : 10 * unitsPerOne < 21 * Nat.pow 10 places := by
    rw [hplaces]
    decide +kernel
  have hhigh : (10 : ℚ) * unitsPerOne < 21 * Nat.pow 10 places := by exact_mod_cast hhigh
  have hpos : (0 : ℚ) < Nat.pow 10 places := Nat.cast_pos.mpr (Nat.pow_pos (by decide))
  rw [ten_zpow_neg, inv_mul_eq_div, lt_div_iff₀ hpos, div_lt_iff₀ hpos]
  exact ⟨by exact_mod_cast hlow, by linarith⟩

/-- Among the smallest numbers there is one that a power of ten is at most half a unit above. -/
theorem ten_zpow_above_unit {units : ℕ} (hpos : 0 < units) (hten : units < 10)
    (hle : units ≤ (10 : ℚ) ^ k * unitsPerOne)
    (hmiddle : (10 : ℚ) ^ k * unitsPerOne ≤ units + 1 / 2) :
    19 * ((10 : ℚ) ^ k * unitsPerOne) ≤ 20 * units := by
  obtain ⟨places, hplaces⟩ : ∃ places : ℕ, places = 323 := ⟨_, rfl⟩
  obtain ⟨hlow, hhigh⟩ := unit_bounds hplaces
  have hone : (1 : ℚ) ≤ units := by exact_mod_cast hpos
  have hnine : (units : ℚ) ≤ 9 := by exact_mod_cast Nat.le_of_lt_succ hten
  have hscaled {i j : ℤ} (hij : i ≤ j) :
      (10 : ℚ) ^ i * unitsPerOne ≤ 10 ^ j * unitsPerOne :=
    mul_le_mul_of_nonneg_right (ten_zpow_le_iff.mpr hij) unitsPerOne_pos.le
  have hk : k = -places := by
    by_contra hne
    rcases lt_or_gt_of_ne hne with hlt | hgt
    · have hstep : (10 : ℚ) ^ (-places : ℤ) = 10 * 10 ^ (-places - 1 : ℤ) := by
        rw [← zpow_one_add₀ (by norm_num), add_sub_cancel]
      have := hscaled (Int.le_sub_one_of_lt hlt)
      rw [hstep] at hhigh
      linarith
    · have hstep : (10 : ℚ) ^ (-places + 1 : ℤ) = 10 ^ (-places : ℤ) * 10 :=
        zpow_add_one₀ (by norm_num) _
      have := hscaled (Int.add_one_le_of_lt hgt)
      rw [hstep] at this
      linarith
  subst hk
  have htwo : units = 2 := by
    have hlt : (units : ℚ) < 3 := by linarith
    have hgt : (1 : ℚ) < units := by linarith
    have : units < 3 := by exact_mod_cast hlt
    have : 1 < units := by exact_mod_cast hgt
    omega
  rw [htwo, Nat.cast_ofNat]
  linarith

variable (h : word < infinityWord) (hpos : 0 < valueOfWord word)
include h hpos

theorem not_isNearest_zero : ¬ IsNearest 0 word := by
  intro hzero
  have hvalue : valueOfWord 0 = 0 := by
    rw [valueOfWord, show unitsOfWord 0 = 0 from rfl, Nat.cast_zero, zero_div]
  rw [← hvalue] at hzero
  have := hzero.eq_valueOfWord h (by decide)
  rw [hvalue] at this
  exact hpos.ne this

/-- A power of ten that reads back as a smaller number is close to it. -/
theorem ten_zpow_close (hk : IsNearest (10 ^ k) word) (hle : valueOfWord word ≤ 10 ^ k) :
    19 * 10 ^ k ≤ 20 * valueOfWord word := by
  obtain ⟨scale, significand, hsplit, hlt, hleading⟩ := Binary64.exists_scale word
  have hmiddle := hk.le_middle h hsplit hlt hleading
  have hunit := unitsPerOne_pos
  have hunits : valueOfWord word * unitsPerOne = significand * 2 ^ scale := by
    rw [valueOfWord, div_mul_cancel₀ _ hunit.ne', hsplit,
      Binary64.unitsOfWord_of_scale hlt.le hleading, Nat.cast_mul, Binary64.cast_two_pow]
  have hle := mul_le_mul_of_nonneg_right hle hunit.le
  have hpos := mul_pos hpos hunit
  refine le_of_mul_le_mul_right ?_ hunit
  rcases le_or_gt 10 significand with hten | hten
  · have hquantum : (0 : ℚ) < 2 ^ scale := by positivity
    have hhalf : (10 : ℚ) * 2 ^ scale ≤ significand * 2 ^ scale :=
      mul_le_mul_of_nonneg_right (by exact_mod_cast hten) hquantum.le
    linarith
  · obtain rfl : scale = 0 := hleading.resolve_right fun hle => by
      have : 10 ≤ Binary64.fractions := by decide
      omega
    rw [pow_zero, mul_one] at hunits hmiddle
    rw [hunits] at hle hpos
    have := ten_zpow_above_unit (by exact_mod_cast hpos) hten hle hmiddle
    rw [mul_assoc, mul_assoc, hunits]
    exact this

end Powers

section Shortest

variable {word n : ℕ} {g : Grid} {y : ℚ}

/-- The power of ten at which the digits of a number begin. -/
def magnitude (word : ℕ) : ℤ := Int.log 10 (valueOfWord word)

theorem magnitude_le (hpos : 0 < valueOfWord word) : 10 ^ magnitude word ≤ valueOfWord word := by
  have := Int.zpow_log_le_self (b := 10) (by decide) hpos
  rwa [Nat.cast_ofNat] at this

theorem lt_magnitude (word : ℕ) : valueOfWord word < 10 ^ (magnitude word + 1) := by
  have := Int.lt_zpow_succ_log_self (b := 10) (by decide) (valueOfWord word)
  rwa [Nat.cast_ofNat] at this

theorem magnitude_lt_wholeSize (hpos : 0 < valueOfWord word) :
    magnitude word + 1 ≤ wholeSize word := by
  have hunit : 0 < unitsPerOne := by exact_mod_cast unitsPerOne_pos
  have hwhole : unitsOfWord word / unitsPerOne < 10 ^ wholeSize word := by
    refine (Nat.length_toDigits_le_iff (by decide) ?_).mp le_rfl
    exact List.length_pos_iff.mpr (digits_ne_nil _)
  have hvalue : valueOfWord word < 10 ^ (wholeSize word : ℤ) := by
    rw [Nat.div_lt_iff_lt_mul hunit] at hwhole
    rw [valueOfWord, div_lt_iff₀ unitsPerOne_pos, zpow_natCast]
    exact_mod_cast hwhole
  have := ten_zpow_lt_iff.mp ((magnitude_le hpos).trans_lt hvalue)
  omega

/-- The one is no farther from the number than the other, and above what is as close. -/
def Beats (word : ℕ) (x y : ℚ) : Prop :=
  |valueOfWord word - x| ≤ |valueOfWord word - y| ∧
    (|valueOfWord word - y| = |valueOfWord word - x| → y ≤ x)

variable (h : word < infinityWord) (hpos : 0 < valueOfWord word) (hfirst : IsFirst word g n)
include h hpos hfirst

omit h in
/-- No decimal that reads back ends farther to the left than the grid. -/
theorem exponent_le {k : ℤ} (hk : k ≤ magnitude word + 1) {m : ℕ}
    (hm : IsNearest (m * 10 ^ k) word) : k ≤ g.exponent := by
  by_contra hlt
  exact hfirst.first k (not_le.mp hlt) (hk.trans (magnitude_lt_wholeSize hpos)) m hm

omit h in
theorem exponent_le_of_power {k : ℤ} (hk : k ≤ magnitude word + 1)
    (hm : IsNearest (10 ^ k) word) : k ≤ g.exponent :=
  exponent_le hpos hfirst (m := 1) hk (by rwa [Nat.cast_one, one_mul])

/-- The next power of ten above the number reads back only on a grid as coarse as it. -/
theorem lt_next_power (hfine : g.exponent ≤ magnitude word) (hy : IsNearest y word) :
    y < 10 ^ (magnitude word + 1) := by
  by_contra hle
  have hnext := (isNearest_valueOfWord h).between hy (lt_magnitude word).le (not_lt.mp hle)
  have := exponent_le_of_power hpos hfirst le_rfl hnext
  omega

/-- On a grid that is coarser than the number, its next power of ten is the only candidate. -/
theorem point_of_coarse (hcoarse : magnitude word < g.exponent) : n = 1 := by
  have hstep := g.step_pos
  have hvalue : valueOfWord word < g.step :=
    (lt_magnitude word).trans_le (ten_zpow_le_iff.mpr hcoarse)
  have hlt : (n : ℚ) * g.step < 2 * g.step := by
    have := hfirst.hit.le_add_step
    linarith
  have hle : n < 2 := by exact_mod_cast lt_of_mul_lt_mul_right hlt hstep.le
  have hne : n ≠ 0 := by
    rintro rfl
    refine not_isNearest_zero h hpos ?_
    have := hfirst.hit.readsBack
    rwa [Nat.cast_zero, zero_mul] at this
  omega

/-- On a finer grid the answer has no more digits than from the number's first to the grid's. -/
theorem hasDigits_of_fine (hfine : g.exponent ≤ magnitude word) :
    HasDigits (magnitude word + 1 - g.exponent).toNat (n * g.step) := by
  refine ⟨n, ?_, g.exponent, rfl⟩
  have hlt := lt_next_power h hpos hfirst hfine hfirst.hit.readsBack
  rw [ten_zpow_eq (j := g.exponent) (by omega)] at hlt
  exact_mod_cast lt_of_mul_lt_mul_right hlt g.step_pos.le

theorem fewest_of_isFirst (hy : IsNearest y word) : AsShort (n * g.step) y := by
  rintro count ⟨m, hm, k, rfl⟩
  have hne : m ≠ 0 := by
    rintro rfl
    refine not_isNearest_zero h hpos ?_
    rwa [Nat.cast_zero, zero_mul] at hy
  have hcount : 1 ≤ count := by
    rcases Nat.eq_zero_or_pos count with rfl | hpos
    · omega
    · exact hpos
  rcases lt_or_ge (magnitude word) g.exponent with hcoarse | hfine
  · rw [point_of_coarse h hpos hfirst hcoarse, Nat.cast_one, one_mul]
    exact (hasDigits_power g.exponent).mono hcount
  · refine (hasDigits_of_fine h hpos hfirst hfine).mono ?_
    rcases lt_or_ge ((m : ℚ) * 10 ^ k) (10 ^ magnitude word) with hbelow | habove
    · -- Then the power of ten at the number's first digit reads back too.
      have hpower := hy.between (isNearest_valueOfWord h) hbelow.le (magnitude_le hpos)
      have := exponent_le_of_power hpos hfirst (by omega) hpower
      omega
    · have hdigits := ten_zpow_lt_iff.mp (habove.trans_lt (mul_ten_zpow_lt hm k))
      have hplace := ten_zpow_lt_iff.mp
        ((ten_zpow_le_mul hne k).trans_lt (lt_next_power h hpos hfirst hfine hy))
      have := exponent_le hpos hfirst hplace.le hy
      omega

omit h hpos in
theorem beats_point {j : ℕ} (hy : IsNearest y word) (hj : y = j * g.step) :
    Beats word (n * g.step) y := by
  subst hj
  refine ⟨hfirst.hit.closest j hy, fun heq => ?_⟩
  exact mul_le_mul_of_nonneg_right (by exact_mod_cast hfirst.hit.upper j hy heq) g.step_pos.le

/-- On a grid that is coarser than the number, no single digit does better than a one there. -/
theorem beats_of_coarse (hcoarse : magnitude word < g.exponent) (hy : IsNearest y word)
    (hshort : AsShort y (n * g.step)) : Beats word (n * g.step) y := by
  have hn : (n : ℚ) * g.step = 10 ^ g.exponent := by
    rw [point_of_coarse h hpos hfirst hcoarse, Nat.cast_one, one_mul, Grid.step]
  rw [hn] at hshort
  obtain ⟨m, hm, k, rfl⟩ := hshort 1 (hasDigits_power g.exponent)
  rcases le_or_gt g.exponent k with hle | hlt
  · obtain ⟨j, hj⟩ := exists_point hle m
    exact beats_point hfirst hy hj
  · -- One digit farther to the right is nine tenths of the answer at most.
    have hvalue : valueOfWord word ≤ 10 ^ g.exponent :=
      (lt_magnitude word).le.trans (ten_zpow_le_iff.mpr hcoarse)
    have hclose := ten_zpow_close h hpos (hn ▸ hfirst.hit.readsBack) hvalue
    have hstep : 10 ^ g.exponent = (10 : ℚ) * 10 ^ (g.exponent - 1) := by
      rw [← zpow_one_add₀ (by norm_num), add_sub_cancel]
    have hnine : (m : ℚ) * 10 ^ k ≤ 9 * 10 ^ (g.exponent - 1) := by
      refine mul_le_mul ?_ (ten_zpow_le_iff.mpr (by omega)) (ten_zpow_pos k).le (by norm_num)
      exact_mod_cast Nat.le_of_lt_succ hm
    have := ten_zpow_pos (g.exponent - 1)
    rw [Beats, hn, abs_of_nonpos (by linarith), abs_of_nonneg (by linarith)]
    exact ⟨by linarith, fun _ => by linarith⟩

/-- On a finer grid, what is as short as the answer is on the grid, or stands below the number's
first digit. -/
theorem beats_of_fine (hfine : g.exponent ≤ magnitude word) (hy : IsNearest y word)
    (hshort : AsShort y (n * g.step)) : Beats word (n * g.step) y := by
  obtain ⟨m, hm, k, rfl⟩ := hshort _ (hasDigits_of_fine h hpos hfirst hfine)
  rcases le_or_gt g.exponent k with hle | hlt
  · obtain ⟨j, hj⟩ := exists_point hle m
    exact beats_point hfirst hy hj
  · -- The number's first digit alone is on the grid, and closer.
    have hbelow : (m : ℚ) * 10 ^ k < 10 ^ magnitude word :=
      (mul_ten_zpow_lt hm k).trans_le (ten_zpow_le_iff.mpr (by omega))
    have hvalue := magnitude_le hpos
    obtain ⟨j, hj⟩ := exists_point hfine 1
    rw [Nat.cast_one, one_mul] at hj
    have hpower := hy.between (isNearest_valueOfWord h) hbelow.le hvalue
    rw [hj] at hbelow hvalue hpower
    have hlt : |valueOfWord word - n * g.step| < |valueOfWord word - m * 10 ^ k| := by
      refine (hfirst.hit.closest j hpower).trans_lt ?_
      rw [abs_of_nonneg (by linarith), abs_of_nonneg (by linarith)]
      linarith
    exact ⟨hlt.le, fun heq => absurd heq hlt.ne'⟩

theorem beats_of_isFirst (hy : IsNearest y word) (hshort : AsShort y (n * g.step)) :
    Beats word (n * g.step) y := by
  rcases lt_or_ge (magnitude word) g.exponent with hcoarse | hfine
  · exact beats_of_coarse h hpos hfirst hcoarse hy hshort
  · exact beats_of_fine h hpos hfirst hfine hy hshort

omit h hpos in
theorem trimmed_of_isFirst : (g.point n).places = 0 ∨ (g.point n).numerator % 10 ≠ 0 := by
  rcases mem_grids_iff.mp hfirst.mem with ⟨hplaces, -⟩ | ⟨hzeros, hplaces, -⟩
  · exact .inl hplaces
  · right
    intro hzero
    have hexponent : g.exponent = -g.places := by
      rw [Grid.exponent, hzeros]
      simp
    rw [Grid.point, hzeros] at hzero
    obtain ⟨m, rfl⟩ : ∃ m, n = m * 10 :=
      ⟨n / 10, (Nat.div_mul_cancel (Nat.dvd_of_mod_eq_zero (by simpa using hzero))).symm⟩
    refine hfirst.first (g.exponent + 1) (by omega) (by omega) m ?_
    have hreads := hfirst.hit.readsBack
    rwa [Grid.step, Nat.cast_mul, Nat.cast_ofNat, mul_assoc, ← zpow_one_add₀ (by norm_num),
      add_comm] at hreads

end Shortest

/-- The decimal that is printed is the shortest one. -/
theorem isShortest_shortest {word : ℕ} (h : word < infinityWord) (hpos : 0 < valueOfWord word) :
    IsShortest word (shortest (unitsOfWord word)) := by
  obtain ⟨g, n, heq, hfirst⟩ := exists_isFirst h
  have hvalue := g.value_point n
  rw [heq]
  refine ⟨?_, ?_, ?_, ?_, trimmed_of_isFirst hfirst⟩ <;> rw [hvalue]
  · exact hfirst.hit.readsBack
  · exact fun y hy => fewest_of_isFirst h hpos hfirst hy
  · exact fun y hy hshort => (beats_of_isFirst h hpos hfirst hy hshort).1
  · exact fun y hy hshort => (beats_of_isFirst h hpos hfirst hy hshort).2

end Reckoner.Decimal

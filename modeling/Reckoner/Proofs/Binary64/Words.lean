import Reckoner.Binary64.Nearest

/-!
# Words and units

The word of a finite number and its units determine each other: rounding the units to a word gives
the word back. Rounding a quotient looks at nothing but the quotient.
-/
namespace Reckoner.Binary64

theorem fractions_pos : 0 < fractions := by decide

theorem roundEven_mul_mul {factor : Nat} (hfactor : 0 < factor) (num den : Nat) :
    roundEven (num * factor) (den * factor) = roundEven num den := by
  have hlt (a b : Nat) : a * factor < b * factor ↔ a < b := Nat.mul_lt_mul_right hfactor
  simp only [roundEven, Nat.mul_div_mul_right _ _ hfactor, Nat.mul_mod_mul_right, ← Nat.mul_assoc,
    hlt]

theorem wordOfUnits_mul_mul {factor : Nat} (hfactor : 0 < factor) (num den : Nat) :
    wordOfUnits (num * factor) (den * factor) = wordOfUnits num den := by
  simp only [wordOfUnits, Nat.mul_div_mul_right _ _ hfactor, Nat.mul_right_comm den factor,
    roundEven_mul_mul hfactor]

/-- Rounding is trivial where the significand fits into the bits that are left. -/
theorem wordOfUnits_of_scale {significand scale : Nat}
    (hscale : (significand * Nat.pow 2 scale).log2 - 52 = scale)
    (hword : scale * fractions + significand ≤ infinityWord) :
    wordOfUnits (significand * Nat.pow 2 scale) 1 = scale * fractions + significand := by
  have hquantum : 0 < Nat.pow 2 scale := Nat.two_pow_pos scale
  simp only [wordOfUnits, Nat.div_one, hscale, Nat.one_mul, roundEven_mul_right _ _ hquantum]
  exact Nat.min_eq_left hword

theorem log2_of_lt_fractions {fraction : Nat} (h : fraction < fractions) :
    fraction.log2 - 52 = 0 := by
  by_cases hzero : fraction = 0
  · rw [hzero, Nat.log2_zero]
  · have : fraction.log2 < 52 := (Nat.log2_lt hzero).mpr h
    omega

/-- The leading bit of a significand moves with the scale. -/
theorem log2_of_leading_bit {fraction : Nat} (h : fraction < fractions) (scale : Nat) :
    ((fractions + fraction) * Nat.pow 2 scale).log2 - 52 = scale := by
  have hlog : ((fractions + fraction) * 2 ^ scale).log2 = 52 + scale := by
    have hpos := Nat.two_pow_pos scale
    have hleading : fractions * 2 ^ scale = 2 ^ (52 + scale) := (Nat.pow_add 2 52 scale).symm
    have hnext : 2 * fractions * 2 ^ scale = 2 ^ (52 + scale + 1) := by
      rw [Nat.mul_assoc, hleading, Nat.pow_succ']
    refine (Nat.log2_eq_iff ?_).mpr ⟨?_, ?_⟩
    · have := Nat.mul_pos (Nat.add_pos_left fractions_pos fraction) hpos
      omega
    · rw [← hleading]
      exact Nat.mul_le_mul_right _ (Nat.le_add_right _ _)
    · rw [← hnext]
      exact (Nat.mul_lt_mul_right hpos).mpr (by omega)
  change ((fractions + fraction) * 2 ^ scale).log2 - 52 = scale
  omega

/-- The word of a finite number is the word of its units. -/
theorem wordOfUnits_unitsOfWord {word : Nat} (h : word < infinityWord) :
    wordOfUnits (unitsOfWord word) 1 = word := by
  have hfraction : word % fractions < fractions := Nat.mod_lt _ fractions_pos
  have hword : word / fractions * fractions + word % fractions = word := Nat.div_add_mod' _ _
  by_cases hfield : word / fractions = 0
  · have hsmall : word % fractions = word := by rwa [hfield, Nat.zero_mul, Nat.zero_add] at hword
    have hunits : unitsOfWord word = word % fractions * Nat.pow 2 0 := by
      simp [unitsOfWord, hfield]
    rw [hunits, wordOfUnits_of_scale]
    · omega
    · simpa using log2_of_lt_fractions hfraction
    · omega
  · obtain ⟨scale, hscale⟩ := Nat.exists_eq_succ_of_ne_zero hfield
    have hunits : unitsOfWord word = (fractions + word % fractions) * Nat.pow 2 scale := by
      simp [unitsOfWord, hscale]
    have hsum : scale * fractions + (fractions + word % fractions) = word := by
      rw [hscale, Nat.succ_mul] at hword
      omega
    rw [hunits, wordOfUnits_of_scale (log2_of_leading_bit hfraction scale), hsum]
    rw [hsum]
    exact Nat.le_of_lt h

/-- The scale leaves the leading bit and 52 more, where there are so many. -/
theorem scale_bounds (quotient : Nat) :
    (quotient.log2 - 52 = 0 ∨ fractions * Nat.pow 2 (quotient.log2 - 52) ≤ quotient) ∧
      quotient < 2 * fractions * Nat.pow 2 (quotient.log2 - 52) := by
  have hlt : quotient < Nat.pow 2 (quotient.log2 + 1) := Nat.lt_log2_self
  rcases Nat.lt_or_ge quotient.log2 52 with hsmall | hlarge
  · have hscale : quotient.log2 - 52 = 0 := by omega
    rw [hscale]
    have hle : Nat.pow 2 (quotient.log2 + 1) ≤ Nat.pow 2 53 :=
      Nat.pow_le_pow_right Nat.two_pos (by omega)
    exact ⟨.inl rfl, Nat.lt_of_lt_of_le hlt hle⟩
  · obtain ⟨scale, hscale⟩ := Nat.exists_eq_add_of_le hlarge
    have hleading : fractions * Nat.pow 2 scale = Nat.pow 2 quotient.log2 := by
      rw [hscale]
      exact (Nat.pow_add 2 52 scale).symm
    rw [hscale, Nat.add_sub_cancel_left, Nat.mul_assoc, hleading]
    refine ⟨.inr (Nat.log2_self_le ?_), Nat.lt_of_lt_of_eq hlt Nat.pow_succ'⟩
    rintro rfl
    simp at hlarge

/-- Every word has a scale and a significand, with a leading bit unless the scale is zero. -/
theorem exists_scale (word : Nat) :
    ∃ scale significand, word = scale * fractions + significand ∧ significand < 2 * fractions ∧
      (scale = 0 ∨ fractions ≤ significand) := by
  have hfraction : word % fractions < fractions := Nat.mod_lt _ fractions_pos
  have hword : word / fractions * fractions + word % fractions = word := Nat.div_add_mod' _ _
  cases hfield : word / fractions with
  | zero =>
    rw [hfield] at hword
    exact ⟨0, word % fractions, hword.symm, by omega, .inl rfl⟩
  | succ scale =>
    rw [hfield, Nat.succ_mul] at hword
    exact ⟨scale, fractions + word % fractions, by omega, by omega, .inr (Nat.le_add_right _ _)⟩

/-- The scale says how much the significand counts. This also holds of a significand that was
rounded up to the next power of two. -/
theorem unitsOfWord_of_scale {scale significand : Nat} (hle : significand ≤ 2 * fractions)
    (hleading : scale = 0 ∨ fractions ≤ significand) :
    unitsOfWord (scale * fractions + significand) = significand * Nat.pow 2 scale := by
  have hpos := fractions_pos
  have hfields (field : Nat) {fraction : Nat} (h : fraction < fractions) :
      (field * fractions + fraction) / fractions = field ∧
        (field * fractions + fraction) % fractions = fraction := by
    rw [Nat.add_comm, Nat.add_mul_div_right _ _ hpos, Nat.div_eq_of_lt h, Nat.zero_add,
      Nat.add_mul_mod_self_right, Nat.mod_eq_of_lt h]
    exact ⟨rfl, rfl⟩
  rcases Nat.lt_or_ge significand fractions with hlt | hge
  · obtain rfl := hleading.resolve_right (Nat.not_le_of_gt hlt)
    obtain ⟨hfield, hfraction⟩ := hfields 0 hlt
    rw [unitsOfWord, hfield, hfraction, if_pos rfl]
    exact (Nat.mul_one _).symm
  · rcases Nat.eq_or_lt_of_le hle with rfl | hlt
    · obtain ⟨hfield, hfraction⟩ := hfields (scale + 2) hpos
      have hword : scale * fractions + 2 * fractions = (scale + 2) * fractions + 0 := by
        rw [Nat.add_mul, Nat.add_zero]
      rw [hword, unitsOfWord, hfield, hfraction, if_neg (Nat.succ_ne_zero _)]
      exact (congrArg (fractions * ·) (Nat.pow_succ' (m := 2))).trans
        (by rw [← Nat.mul_assoc, Nat.mul_comm fractions]; rfl)
    · obtain ⟨fraction, rfl⟩ := Nat.exists_eq_add_of_le hge
      have hbelow : fraction < fractions := by omega
      obtain ⟨hfield, hfraction⟩ := hfields (scale + 1) hbelow
      have hword : scale * fractions + (fractions + fraction) =
          (scale + 1) * fractions + fraction := by
        rw [Nat.succ_mul, Nat.add_assoc]
      rw [hword, unitsOfWord, hfield, hfraction, if_neg (Nat.succ_ne_zero _),
        Nat.add_sub_cancel]

theorem unitsOfWord_lt_succ (word : Nat) : unitsOfWord word < unitsOfWord (word + 1) := by
  obtain ⟨scale, significand, rfl, hlt, hleading⟩ := exists_scale word
  rw [Nat.add_assoc, unitsOfWord_of_scale (Nat.le_of_lt hlt) hleading,
    unitsOfWord_of_scale hlt (hleading.imp_right Nat.le_succ_of_le)]
  exact (Nat.mul_lt_mul_right (Nat.two_pow_pos scale)).mpr significand.lt_succ_self

/-- A number is a multiple of any quantum, or it has none of the leading bits above the quantum. -/
theorem unitsOfWord_multiple_or_lt (word scale : Nat) :
    (∃ count, unitsOfWord word = count * Nat.pow 2 scale) ∨
      unitsOfWord word < fractions * Nat.pow 2 scale := by
  obtain ⟨own, significand, rfl, hlt, hleading⟩ := exists_scale word
  rw [unitsOfWord_of_scale (Nat.le_of_lt hlt) hleading]
  rcases Nat.lt_or_ge own scale with hgt | hle
  · right
    calc significand * Nat.pow 2 own
        < 2 * fractions * Nat.pow 2 own := (Nat.mul_lt_mul_right (Nat.two_pow_pos own)).mpr hlt
      _ = fractions * Nat.pow 2 (own + 1) := by
        rw [Nat.mul_comm 2, Nat.mul_assoc]
        exact congrArg (fractions * ·) (Nat.pow_succ' (m := 2)).symm
      _ ≤ fractions * Nat.pow 2 scale :=
        Nat.mul_le_mul_left _ (Nat.pow_le_pow_right (by decide) hgt)
  · obtain ⟨more, rfl⟩ := Nat.exists_eq_add_of_le' hle
    refine .inl ⟨significand * Nat.pow 2 more, ?_⟩
    rw [Nat.mul_assoc]
    exact congrArg (significand * ·) (Nat.pow_add 2 more scale)

end Reckoner.Binary64

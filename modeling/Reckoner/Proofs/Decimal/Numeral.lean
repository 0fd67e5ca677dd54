import Reckoner.Proofs.Decimal.Text

/-!
# Which texts are numerals

Reading a decimal succeeds on digits with at most one point among them, as long as there is a digit,
and on nothing else. The same is said of any other mark in place of the point.
-/
namespace Reckoner.Decimal

/-- Digits with at most one mark among them, and not the mark alone. -/
structure IsNumeral (mark : Char) (text : List Char) : Prop where
  plain : ∀ c ∈ text, c.isDigit = true ∨ c = mark
  digit : ∃ c ∈ text, c.isDigit = true
  single : text.count mark ≤ 1

/-- What a numeral stands for: its digits, divided by ten for each character behind the mark. -/
def ofNumeral (mark : Char) (text : List Char) : Decimal :=
  ⟨Nat.ofDigitChars 10 (text.filter Char.isDigit) 0, (text.dropWhile (· != mark)).tail.length⟩

variable {mark : Char} {text : List Char}

theorem exists_halves (h : text.count mark ≤ 1) (hmem : mark ∈ text) :
    ∃ whole fraction, text = whole ++ mark :: fraction ∧ mark ∉ whole ∧ mark ∉ fraction := by
  obtain ⟨whole, fraction, rfl⟩ := List.append_of_mem hmem
  rw [List.count_append, List.count_cons_self] at h
  exact ⟨whole, fraction, rfl, List.count_eq_zero.mp (by omega), List.count_eq_zero.mp (by omega)⟩

theorem IsNumeral.isDigit_of_subset {part : List Char} (h : IsNumeral mark text)
    (hsub : part ⊆ text) (hpart : mark ∉ part) : ∀ c ∈ part, c.isDigit = true := fun c hc =>
  (h.plain c (hsub hc)).resolve_right fun heq => hpart (heq ▸ hc)

section Parts

variable {whole fraction : List Char} (hwhole : ∀ c ∈ whole, c.isDigit = true)
include hwhole

theorem bne_point_of_isDigit : ∀ c ∈ whole, (c != '.') = true := fun c hc => by
  refine bne_iff_ne.mpr ?_
  rintro rfl
  exact absurd (hwhole _ hc) (by decide)

theorem ofNumeral_point (hfraction : ∀ c ∈ fraction, c.isDigit = true) :
    ofNumeral '.' (whole ++ '.' :: fraction) =
      ⟨Nat.ofDigitChars 10 (whole ++ fraction) 0, fraction.length⟩ := by
  have hfilter : (whole ++ '.' :: fraction).filter Char.isDigit = whole ++ fraction := by
    rw [List.filter_append, List.filter_cons_of_neg (by decide),
      List.filter_eq_self.mpr hwhole, List.filter_eq_self.mpr hfraction]
  rw [ofNumeral, hfilter, List.dropWhile_append_of_pos (bne_point_of_isDigit hwhole),
    List.dropWhile_cons_of_neg (by simp), List.tail_cons]

theorem ofNumeral_whole : ofNumeral '.' whole = ⟨Nat.ofDigitChars 10 whole 0, 0⟩ := by
  rw [ofNumeral, List.filter_eq_self.mpr hwhole,
    List.dropWhile_eq_nil_iff.mpr (bne_point_of_isDigit hwhole)]
  rfl

end Parts

theorem ofText?_of_isNumeral (h : IsNumeral '.' text) :
    ofText? text = some (ofNumeral '.' text) := by
  by_cases hpoint : '.' ∈ text
  · obtain ⟨whole, fraction, rfl, hwhole, hfraction⟩ := exists_halves h.single hpoint
    have hleft := h.isDigit_of_subset (by simp) hwhole
    have hright := h.isDigit_of_subset (by simp) hfraction
    have hne : whole ++ fraction ≠ [] := by
      obtain ⟨c, hc, hdigit⟩ := h.digit
      rintro hnil
      obtain ⟨rfl, rfl⟩ := List.append_eq_nil_iff.mp hnil
      obtain rfl : c = '.' := by simpa using hc
      cases hdigit
    rw [ofText?_point hleft hright hne, ofNumeral_point hleft hright]
  · have hwhole := h.isDigit_of_subset (List.Subset.refl text) hpoint
    have hne : text ≠ [] := by
      obtain ⟨c, hc, -⟩ := h.digit
      exact List.ne_nil_of_mem hc
    rw [ofText?_whole hwhole hne, ofNumeral_whole hwhole]

theorem isNumeral_of_ofText? {d : Decimal} (h : ofText? text = some d) : IsNumeral '.' text := by
  have hwhole : ∀ c ∈ text.takeWhile Char.isDigit, c.isDigit = true :=
    fun c => List.mem_takeWhile_imp
  have hcount {part : List Char} (hpart : ∀ c ∈ part, c.isDigit = true) : part.count '.' = 0 :=
    List.count_eq_zero.mpr fun hmem => absurd (hpart _ hmem) (by decide)
  rw [ofText?] at h
  rw [← List.takeWhile_append_dropWhile (p := Char.isDigit) (l := text)]
  generalize text.takeWhile Char.isDigit = whole at hwhole h
  split at h
  · next hnone =>
    rw [hnone, List.append_nil]
    split at h
    · cases h
    · next hne =>
      obtain ⟨c, cs, rfl⟩ := List.exists_cons_of_ne_nil hne
      exact ⟨fun c hc => .inl (hwhole c hc), ⟨c, by simp, hwhole c (by simp)⟩,
        (hcount hwhole).trans_le (Nat.zero_le 1)⟩
  · next point fraction hsome =>
    rw [hsome]
    split at h
    · next hparts =>
      obtain ⟨rfl, hfraction, hne⟩ := hparts
      rw [List.all_eq_true] at hfraction
      refine ⟨fun c hc => ?_, ?_, ?_⟩
      · rw [List.mem_append, List.mem_cons] at hc
        rcases hc with hc | rfl | hc
        · exact .inl (hwhole c hc)
        · exact .inr rfl
        · exact .inl (hfraction c hc)
      · obtain ⟨c, hc⟩ := List.exists_mem_of_ne_nil _ hne
        rcases List.mem_append.mp hc with hc | hc
        · exact ⟨c, by simp [hc], hwhole c hc⟩
        · exact ⟨c, by simp [hc], hfraction c hc⟩
      · rw [List.count_append, List.count_cons_self, hcount hwhole, hcount hfraction]
    · cases h

theorem ofText?_eq_none (h : ¬ IsNumeral '.' text) : ofText? text = none := by
  cases hread : ofText? text with
  | none => rfl
  | some d => exact absurd (isNumeral_of_ofText? hread) h

end Reckoner.Decimal

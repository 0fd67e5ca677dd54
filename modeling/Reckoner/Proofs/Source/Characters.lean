import Reckoner.Lexeme
import Reckoner.Separator

/-!
# Classes of characters

Blanks, letters, digits and symbols have no character in common, and a separator is none of them.
-/
namespace Reckoner

theorem isBlank_eq_false_of {p : Char → Bool}
    (hblanks : [' ', '\t', '\r', '\n', '\x0c'].all (!p ·) = true) {c : Char} (h : p c = true) :
    isBlank c = false := by
  by_cases hblank : isBlank c = true
  · have hmem : c ∈ [' ', '\t', '\r', '\n', '\x0c'] := by
      simpa [isBlank, or_assoc] using hblank
    have := List.all_eq_true.mp hblanks c hmem
    simp [h] at this
  · exact Bool.eq_false_iff.mpr hblank

theorem isBlank_of_isDigit {c : Char} (h : c.isDigit = true) : isBlank c = false :=
  isBlank_eq_false_of (by decide) h

theorem isBlank_of_isAlpha {c : Char} (h : c.isAlpha = true) : isBlank c = false :=
  isBlank_eq_false_of (by decide) h

/-- Digits stand in front of all letters. -/
theorem isAlpha_of_isDigit {c : Char} (h : c.isDigit = true) : c.isAlpha = false := by
  have hle : c.val ≤ '9'.val := of_decide_eq_true (Bool.and_eq_true_iff.mp h).2
  have hupper : ¬ 'A'.val ≤ c.val := fun hc => absurd (UInt32.le_trans hc hle) (by decide)
  have hlower : ¬ 'a'.val ≤ c.val := fun hc => absurd (UInt32.le_trans hc hle) (by decide)
  refine Bool.or_eq_false_iff.mpr ⟨?_, ?_⟩
  · exact decide_eq_false fun hc => hupper hc.1
  · exact Bool.and_eq_false_iff.mpr (.inl (decide_eq_false hlower))

theorem isReserved_of_isBlank {c : Char} (h : isBlank c = true) : isReserved c = true := by
  refine Bool.of_not_eq_false fun hfree => ?_
  have hnot : isBlank c = false :=
    isBlank_eq_false_of (p := fun c => !isReserved c) (by decide) (by simp [hfree])
  exact Bool.false_ne_true (hnot.symm.trans h)

theorem isReserved_of_isDigit {c : Char} (h : c.isDigit = true) : isReserved c = true := by
  rw [isReserved, Char.isAlphanum, h, Bool.or_true, Bool.true_or, Bool.true_or]

theorem isReserved_of_isAlpha {c : Char} (h : c.isAlpha = true) : isReserved c = true := by
  rw [isReserved, Char.isAlphanum, h, Bool.true_or, Bool.true_or, Bool.true_or]

namespace Symbol

variable (s : Symbol)

theorem isReserved_char : isReserved s.char = true := by
  cases s <;> rfl

theorem isBlank_char : isBlank s.char = false := by
  cases s <;> rfl

theorem isDigit_char : s.char.isDigit = false := by
  cases s <;> rfl

theorem isAlpha_char : s.char.isAlpha = false := by
  cases s <;> rfl

end Symbol

namespace Separator

variable (separator : Separator)

theorem isAlphanum_char : separator.char.isAlphanum = false := by
  have hfree := separator.free
  simp only [isReserved, Bool.or_eq_false_iff] at hfree
  exact hfree.1.1

theorem isDigit_char : separator.char.isDigit = false := by
  have := separator.isAlphanum_char
  rw [Char.isAlphanum, Bool.or_eq_false_iff] at this
  exact this.2

theorem isAlpha_char : separator.char.isAlpha = false := by
  have := separator.isAlphanum_char
  rw [Char.isAlphanum, Bool.or_eq_false_iff] at this
  exact this.1

theorem isBlank_char : isBlank separator.char = false :=
  Bool.eq_false_iff.mpr fun hblank =>
    Bool.false_ne_true (separator.free.symm.trans (isReserved_of_isBlank hblank))

theorem ofChar?_char : Symbol.ofChar? separator.char = none := by
  have hfree := separator.free
  simp only [isReserved, Bool.or_eq_false_iff] at hfree
  simpa using hfree.2

theorem ne_of_isDigit {c : Char} (h : c.isDigit = true) : c ≠ separator.char := by
  rintro rfl
  rw [separator.isDigit_char] at h
  cases h

end Separator

end Reckoner

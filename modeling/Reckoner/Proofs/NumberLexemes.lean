import Reckoner.Proofs.Binary64.Bits
import Reckoner.Proofs.Decimal.Value
import Reckoner.Proofs.Source.Runs

/-!
# The numbers in a source

What starts like a number is cut out as digits and separators, whatever character the separator is.
Main statement: with points for separators it is a plain decimal numeral, and then the binary64
number nearest to what this denotes, or it is malformed.
-/
namespace Reckoner

open Binary64 (IsNearest View view infinityWord signBit)

/-- The number is nearest to a rational without a sign, and has no sign itself. -/
structure Represents (x : ℚ) (v : Float) : Prop where
  nearest : IsNearest x v.toBits.toNat
  unsigned : view v = .infinite false ∨ ∃ units, view v = .finite false units

theorem Represents.unique {x : ℚ} {v w : Float} (hv : Represents x v) (hw : Represents x w) :
    v = w :=
  Float.toBits_inj.mp (UInt64.toNat_inj.mp (hv.nearest.unique hw.nearest))

theorem Decimal.represents_toFloat (d : Decimal) : Represents d.value d.toFloat := by
  have hnearest := d.isNearest_toWord
  have hbits : d.toFloat.toBits.toNat = d.toWord := Binary64.toBits_ofWord hnearest.word_le
  refine ⟨hbits ▸ hnearest, ?_⟩
  have hsign : d.toWord < signBit := Nat.lt_of_le_of_lt hnearest.word_le (by decide)
  rw [view, hbits, Nat.mod_eq_of_lt hsign, decide_eq_false (Nat.not_le_of_gt hsign),
    View.ofFields, if_neg (Nat.not_lt_of_le hnearest.word_le)]
  split
  · exact .inl rfl
  · exact .inr ⟨_, rfl⟩

/-- The second text is the first with zeros in front, with zeros behind its point or with a point
at its end. -/
inductive Padding : List Char → List Char → Prop where
  | leading (n : ℕ) (text : List Char) : Padding text (List.replicate n '0' ++ text)
  | trailing (n : ℕ) {text : List Char} (h : '.' ∈ text) :
      Padding text (text ++ List.replicate n '0')
  | point {text : List Char} (h : '.' ∉ text) : Padding text (text ++ ['.'])

theorem Padding.numeralValue_eq {text padded : List Char} (h : Padding text padded) :
    Decimal.numeralValue padded = Decimal.numeralValue text := by
  cases h with
  | leading n => exact Decimal.numeralValue_leading_zeros n text
  | trailing n h => exact Decimal.numeralValue_trailing_zeros n h
  | point h => exact Decimal.numeralValue_trailing_point h

namespace Lexeme

variable (separator : Char) (l : Lexeme)

def StartsNumber : Prop := ∃ c ∈ l.text.head?, LexemeKind.ofStart separator c = .number

def pointedText : List Char := l.text.map (pointed separator)

/-- There is a digit, and there is no second point. -/
def IsPlain : Prop :=
  (∃ c ∈ l.pointedText separator, c.isDigit = true) ∧ (l.pointedText separator).count '.' ≤ 1

end Lexeme

section Sources

variable {separator : Char} {source : String} {l : Lexeme} {v : Float}

theorem LexemeKind.numeric_of_ofStart {c : Char} (h : ofStart separator c = .number) :
    number.continuesWith separator c = true := by
  rw [continuesWith]
  by_cases hdigit : c.isDigit = true
  · rw [hdigit, Bool.true_or]
  · by_cases hletter : c.isAlpha = true
    · simp [ofStart, hdigit, hletter] at h
    · simp only [ofStart, if_neg hdigit, if_neg hletter] at h
      split at h
      · cases h
      · split at h
        · next hseparator => simp [hseparator]
        · cases h

/-- What starts like a number is read as one, and nothing else is. -/
theorem content_of_mem (hl : l ∈ lexemes separator source) :
    (l.StartsNumber separator → l.content = readNumber separator l.text ∧
      ∀ c ∈ l.text, LexemeKind.number.continuesWith separator c = true) ∧
    ∀ v, l.content = .ok (.number v) → l.StartsNumber separator := by
  obtain ⟨front, c, cs, -, -, rfl⟩ := exists_scan_of_mem hl
  simp only [scan_eq, Cursor.run, readLexeme, Lexeme.StartsNumber, List.head?_cons,
    Option.mem_some_iff, exists_eq_left']
  refine ⟨fun hkind => ?_, fun v hv => ?_⟩
  · simp only [hkind, List.forall_mem_cons, true_and]
    exact ⟨LexemeKind.numeric_of_ofStart hkind, fun d => List.mem_takeWhile_imp⟩
  · cases hkind : LexemeKind.ofStart separator c <;> simp [hkind] at hv ⊢

/-- The text shows digits and points, and nothing else that could mean something. -/
theorem plain_of_startsNumber (hl : l ∈ lexemes separator source)
    (h : l.StartsNumber separator) : ∀ c ∈ l.pointedText separator, c.isDigit = true ∨ c = '.' := by
  intro d hd
  obtain ⟨c, hc, rfl⟩ := List.mem_map.mp hd
  have hnumeric := ((content_of_mem hl).1 h).2 c hc
  rw [LexemeKind.continuesWith, Bool.or_eq_true, decide_eq_true_eq] at hnumeric
  by_cases hseparator : c = separator
  · exact .inr (if_pos hseparator)
  · rw [pointed, if_neg hseparator]
    exact .inl (hnumeric.resolve_right hseparator)

theorem number_of_isPlain (hl : l ∈ lexemes separator source) (h : l.StartsNumber separator)
    (hplain : l.IsPlain separator) :
    ∃ v, l.content = .ok (.number v) ∧
      Represents (Decimal.numeralValue (l.pointedText separator)) v := by
  have hnumeral : Decimal.IsNumeral '.' (l.pointedText separator) :=
    ⟨plain_of_startsNumber hl h, hplain.1, hplain.2⟩
  refine ⟨_, ((content_of_mem hl).1 h).1.trans (readNumber_of_isNumeral separator hnumeral), ?_⟩
  rw [← Decimal.value_ofNumeral hnumeral]
  exact Decimal.represents_toFloat _

theorem malformed_of_not_isPlain (hl : l ∈ lexemes separator source)
    (h : l.StartsNumber separator) (hplain : ¬ l.IsPlain separator) :
    l.content = .error .malformedNumber :=
  ((content_of_mem hl).1 h).1.trans (readNumber_of_not_isNumeral separator fun hnumeral =>
    hplain ⟨hnumeral.digit, hnumeral.single⟩)

theorem represents_of_number (hl : l ∈ lexemes separator source)
    (hv : l.content = .ok (.number v)) :
    Represents (Decimal.numeralValue (l.pointedText separator)) v := by
  have h := (content_of_mem hl).2 v hv
  by_cases hplain : l.IsPlain separator
  · obtain ⟨w, hw, hrepresents⟩ := number_of_isPlain hl h hplain
    obtain rfl : w = v := by simpa [hw] using hv
    exact hrepresents
  · rw [malformed_of_not_isPlain hl h hplain] at hv
    cases hv

end Sources

/-- A lexeme is a number if it starts like one and its text, with points for separators, has a digit
and at most one point; a lexeme that starts like a number and is none is malformed. Besides digits
and points its text shows nothing. A number represents the rational that its text denotes, so texts
that denote the same are the same number, and padding denotes nothing. -/
theorem number_lexemes (separator : Char) (source : String) :
    (∀ l ∈ lexemes separator source, l.StartsNumber separator →
      (∀ c ∈ l.pointedText separator, c.isDigit = true ∨ c = '.') ∧
      ((∃ v, l.content = .ok (.number v)) ↔ l.IsPlain separator) ∧
      (¬ l.IsPlain separator → l.content = .error .malformedNumber)) ∧
    (∀ l ∈ lexemes separator source, ∀ v, l.content = .ok (.number v) →
      l.StartsNumber separator ∧
      Represents (Decimal.numeralValue (l.pointedText separator)) v ∧
      ∀ (otherSeparator : Char) (otherSource : String), ∀ k ∈ lexemes otherSeparator otherSource,
        ∀ w, k.content = .ok (.number w) →
        Decimal.numeralValue (k.pointedText otherSeparator) =
          Decimal.numeralValue (l.pointedText separator) → w = v) ∧
    (∀ text padded, Padding text padded →
      Decimal.numeralValue padded = Decimal.numeralValue text) := by
  refine ⟨fun l hl h => ⟨plain_of_startsNumber hl h, ?_, malformed_of_not_isPlain hl h⟩,
    fun l hl v hv => ⟨(content_of_mem hl).2 v hv, represents_of_number hl hv, ?_⟩,
    fun text padded => Padding.numeralValue_eq⟩
  · constructor
    · rintro ⟨v, hv⟩
      by_contra hplain
      rw [malformed_of_not_isPlain hl h hplain] at hv
      cases hv
    · intro hplain
      obtain ⟨v, hv, -⟩ := number_of_isPlain hl h hplain
      exact ⟨v, hv⟩
  · intro otherSeparator otherSource k hk w hw hvalue
    have hsame := represents_of_number hk hw
    rw [hvalue] at hsame
    exact hsame.unique (represents_of_number hl hv)

end Reckoner

import Reckoner.Proofs.Source.Joints

/-!
# The lexical grammar

A source is spelt, from left to right, by maximal runs of blanks, of letters and of digits and
separators, and by single characters: symbols, and those that are nothing of all this. Main
statement: for every source and every separator, the items of the lexemes are exactly the items that
this grammar spells, each at the byte offset where its piece starts. What follows a piece that is no
token is spelt like anything else.
-/
namespace Reckoner

def isNumeric (separator c : Char) : Bool := c.isDigit || c = separator

structure IsStray (separator c : Char) : Prop where
  blank : isBlank c = false
  letter : c.isAlpha = false
  numeric : isNumeric separator c = false
  symbol : ∀ s : Symbol, c ≠ s.char

/-- `Spells separator start text items`: the text, which starts at a byte offset, is cut into pieces
that are these items. -/
inductive Spells (separator : Char) :
    Nat → List Char → List (Except EvalError Located) → Prop where
  | nil {start : Nat} : Spells separator start [] []
  | blanks {start : Nat} {run rest : List Char} {items : List (Except EvalError Located)}
      (hrun : Run isBlank run rest)
      (h : Spells separator (start + byteLength run) rest items) :
      Spells separator start (run ++ rest) items
  | identifier {start : Nat} {run rest : List Char} {items : List (Except EvalError Located)}
      (hrun : Run Char.isAlpha run rest)
      (h : Spells separator (start + byteLength run) rest items) :
      Spells separator start (run ++ rest) (.ok ⟨.identifier (String.ofList run), start⟩ :: items)
  /-- At least one digit and at most one separator; the digits behind it are the places. -/
  | number {start : Nat} {run rest : List Char} {items : List (Except EvalError Located)}
      (hrun : Run (isNumeric separator) run rest) (hdigit : ∃ c ∈ run, c.isDigit = true)
      (hsingle : run.count separator ≤ 1)
      (h : Spells separator (start + byteLength run) rest items) :
      Spells separator start (run ++ rest)
        (.ok ⟨.number (Decimal.ofNumeral separator run).toFloat, start⟩ :: items)
  | malformed {start : Nat} {run rest : List Char} {items : List (Except EvalError Located)}
      (hrun : Run (isNumeric separator) run rest)
      (hnot : (∀ c ∈ run, c.isDigit = false) ∨ 1 < run.count separator)
      (h : Spells separator (start + byteLength run) rest items) :
      Spells separator start (run ++ rest)
        (.error ⟨start, .malformedNumber (String.ofList run)⟩ :: items)
  | symbol {start : Nat} {s : Symbol} {rest : List Char}
      {items : List (Except EvalError Located)}
      (h : Spells separator (start + s.char.utf8Size) rest items) :
      Spells separator start (s.char :: rest) (.ok ⟨.symbol s, start⟩ :: items)
  | stray {start : Nat} {c : Char} {rest : List Char} {items : List (Except EvalError Located)}
      (hc : IsStray separator c) (h : Spells separator (start + c.utf8Size) rest items) :
      Spells separator start (c :: rest) (.error ⟨start, .unknownCharacter c⟩ :: items)

/-- Every text is spelt somehow: the class of its first character says how it starts. -/
theorem exists_spells (separator : Char) (text : List Char) :
    ∀ start, ∃ items, Spells separator start text items := by
  induction hlength : text.length using Nat.strongRecOn generalizing text with
  | _ length ih =>
    intro start
    cases text with
    | nil => exact ⟨[], .nil⟩
    | cons c cs =>
      have hshorter (p : Char → Bool) : (cs.dropWhile p).length < length := by
        rw [← hlength]
        exact Nat.lt_succ_of_le (List.dropWhile_suffix p).length_le
      have hcut (p : Char → Bool) : c :: cs = (c :: cs.takeWhile p) ++ cs.dropWhile p := by
        rw [List.cons_append, List.takeWhile_append_dropWhile]
      by_cases hblank : isBlank c = true
      · obtain ⟨items, h⟩ := ih _ (hshorter isBlank) _ rfl _
        rw [hcut isBlank]
        exact ⟨items, .blanks (.of_cons c cs hblank) h⟩
      by_cases hletter : c.isAlpha = true
      · obtain ⟨items, h⟩ := ih _ (hshorter Char.isAlpha) _ rfl _
        rw [hcut Char.isAlpha]
        exact ⟨_, .identifier (.of_cons c cs hletter) h⟩
      by_cases hnumeric : isNumeric separator c = true
      · obtain ⟨items, h⟩ := ih _ (hshorter (isNumeric separator)) _ rfl _
        have hrun := Run.of_cons c cs hnumeric
        rw [hcut (isNumeric separator)]
        by_cases hdigit : ∃ d ∈ c :: cs.takeWhile (isNumeric separator), d.isDigit = true
        · by_cases hsingle : (c :: cs.takeWhile (isNumeric separator)).count separator ≤ 1
          · exact ⟨_, .number hrun hdigit hsingle h⟩
          · exact ⟨_, .malformed hrun (.inr (Nat.lt_of_not_le hsingle)) h⟩
        · exact ⟨_, .malformed hrun (.inl (by simpa using hdigit)) h⟩
      obtain ⟨items, h⟩ := ih cs.length (hlength ▸ Nat.lt_succ_self _) cs rfl (start + c.utf8Size)
      by_cases hsymbol : ∃ s : Symbol, c = s.char
      · obtain ⟨s, rfl⟩ := hsymbol
        exact ⟨_, .symbol h⟩
      · refine ⟨_, .stray ⟨?_, ?_, ?_, ?_⟩ h⟩
        · simpa using hblank
        · simpa using hletter
        · simpa using hnumeric
        · exact fun s hs => hsymbol ⟨s, hs⟩

section Numbers

variable (separator : Separator)

theorem ofStart_of_isNumeric {c : Char} (h : isNumeric separator.char c = true) :
    LexemeKind.ofStart separator.char c = .number := by
  rw [isNumeric, Bool.or_eq_true, decide_eq_true_eq] at h
  rcases h with hdigit | rfl
  · exact if_pos hdigit
  · simp [LexemeKind.ofStart, separator.isDigit_char, separator.isAlpha_char,
      separator.ofChar?_char]

theorem isBlank_of_isNumeric {c : Char} (h : isNumeric separator.char c = true) :
    isBlank c = false := by
  rw [isNumeric, Bool.or_eq_true, decide_eq_true_eq] at h
  rcases h with hdigit | rfl
  · exact isBlank_of_isDigit hdigit
  · exact separator.isBlank_char

theorem isDigit_pointed (c : Char) : (pointed separator.char c).isDigit = c.isDigit := by
  rw [pointed]
  split
  · next hseparator => rw [hseparator, separator.isDigit_char]; rfl
  · rfl

variable {run : List Char} (hrun : ∀ c ∈ run, isNumeric separator.char c = true)
include hrun

/-- Among digits and separators, the separators and only these become points. -/
theorem pointed_eq_iff : ∀ c ∈ run, pointed separator.char c = '.' ↔ c = separator.char := by
  intro c hc
  have hnumeric := hrun c hc
  rw [isNumeric, Bool.or_eq_true, decide_eq_true_eq] at hnumeric
  constructor
  · intro hpoint
    refine hnumeric.resolve_left fun hdigit => ?_
    rw [pointed, if_neg (separator.ne_of_isDigit hdigit)] at hpoint
    subst hpoint
    cases hdigit
  · exact fun hseparator => if_pos hseparator

theorem count_pointed :
    (run.map (pointed separator.char)).count '.' = run.count separator.char := by
  rw [List.count_eq_countP, List.count_eq_countP, List.countP_map]
  refine List.countP_congr fun c hc => ?_
  simp only [Function.comp_apply, beq_iff_eq]
  exact pointed_eq_iff separator hrun c hc

theorem isNumeral_pointed_iff :
    Decimal.IsNumeral '.' (run.map (pointed separator.char)) ↔
      (∃ c ∈ run, c.isDigit = true) ∧ run.count separator.char ≤ 1 := by
  constructor
  · intro h
    obtain ⟨d, hd, hdigit⟩ := h.digit
    obtain ⟨c, hc, rfl⟩ := List.mem_map.mp hd
    exact ⟨⟨c, hc, isDigit_pointed separator c ▸ hdigit⟩,
      count_pointed separator hrun ▸ h.single⟩
  · rintro ⟨⟨c, hc, hdigit⟩, hsingle⟩
    refine ⟨fun d hd => ?_, ⟨_, List.mem_map_of_mem hc, ?_⟩, ?_⟩
    · obtain ⟨c, hc, rfl⟩ := List.mem_map.mp hd
      have hnumeric := hrun c hc
      rw [isNumeric, Bool.or_eq_true, decide_eq_true_eq] at hnumeric
      rcases hnumeric with hdigit | hseparator
      · exact .inl ((isDigit_pointed separator c).trans hdigit)
      · exact .inr (if_pos hseparator)
    · rwa [isDigit_pointed separator c]
    · rwa [count_pointed separator hrun]

/-- The digits of a numeral stay, and as many of them stand behind the point as did behind the
separator. -/
theorem ofNumeral_pointed :
    Decimal.ofNumeral '.' (run.map (pointed separator.char)) =
      Decimal.ofNumeral separator.char run := by
  have hdigits : (run.map (pointed separator.char)).filter Char.isDigit =
      run.filter Char.isDigit := by
    have hsame : run.filter (Char.isDigit ∘ pointed separator.char) = run.filter Char.isDigit :=
      List.filter_congr fun c _ => isDigit_pointed separator c
    rw [List.filter_map, hsame]
    refine (List.map_congr_left fun c hc => ?_).trans (List.map_id _)
    exact if_neg (separator.ne_of_isDigit (List.mem_filter.mp hc).2)
  have hplaces (run : List Char) (hrun : ∀ c ∈ run, isNumeric separator.char c = true) :
      ((run.map (pointed separator.char)).dropWhile (· != '.')).tail.length =
        (run.dropWhile (· != separator.char)).tail.length := by
    induction run with
    | nil => rfl
    | cons c run ih =>
      have hpoint := pointed_eq_iff separator hrun c List.mem_cons_self
      rw [List.map_cons]
      by_cases hseparator : c = separator.char
      · rw [List.dropWhile_cons_of_neg (by simp [hpoint.mpr hseparator]),
          List.dropWhile_cons_of_neg (by simp [hseparator]), List.tail_cons, List.tail_cons,
          List.length_map]
      · rw [List.dropWhile_cons_of_pos (by simp [mt hpoint.mp hseparator]),
          List.dropWhile_cons_of_pos (by simp [hseparator])]
        exact ih fun d hd => hrun d (List.mem_cons_of_mem c hd)
  rw [Decimal.ofNumeral, Decimal.ofNumeral, hdigits, hplaces run hrun]

theorem readNumber_of_digit (hdigit : ∃ c ∈ run, c.isDigit = true)
    (hsingle : run.count separator.char ≤ 1) :
    readNumber separator.char run =
      .ok (.number (Decimal.ofNumeral separator.char run).toFloat) := by
  have hnumeral := (isNumeral_pointed_iff separator hrun).mpr ⟨hdigit, hsingle⟩
  rw [readNumber_of_isNumeral separator.char hnumeral, ofNumeral_pointed separator hrun]

theorem readNumber_of_malformed
    (hnot : (∀ c ∈ run, c.isDigit = false) ∨ 1 < run.count separator.char) :
    readNumber separator.char run = .error .malformedNumber := by
  refine readNumber_of_not_isNumeral separator.char ?_
  rw [isNumeral_pointed_iff separator hrun]
  rintro ⟨⟨c, hc, hdigit⟩, hsingle⟩
  rcases hnot with hnone | hmany
  · rw [hnone c hc] at hdigit
    cases hdigit
  · exact Nat.not_le_of_gt hmany hsingle

end Numbers

section Items

variable {separator : Separator} {start : Nat} {text run rest : List Char}
  {items : List (Except EvalError Located)}

/-- A run of digits and separators is one lexeme, whichever of them it starts with. -/
theorem items_of_numeric (hrun : Run (isNumeric separator.char) run rest) :
    (lexemesFrom separator.char start (run ++ rest)).map Lexeme.item =
      Lexeme.item ⟨start, run, readNumber separator.char run⟩ ::
        (lexemesFrom separator.char (start + byteLength run) rest).map Lexeme.item := by
  obtain ⟨c, more, rfl⟩ := List.exists_cons_of_ne_nil hrun.nonempty
  have hc := hrun.inside c List.mem_cons_self
  have hkind := ofStart_of_isNumeric separator hc
  rw [List.cons_append,
    lexemesFrom_run separator.char start (isBlank_of_isNumeric separator hc) hkind hrun,
    List.map_cons, readLexeme, hkind]

theorem items_of_letters (hrun : Run Char.isAlpha run rest) :
    (lexemesFrom separator.char start (run ++ rest)).map Lexeme.item =
      .ok ⟨.identifier (String.ofList run), start⟩ ::
        (lexemesFrom separator.char (start + byteLength run) rest).map Lexeme.item := by
  obtain ⟨c, more, rfl⟩ := List.exists_cons_of_ne_nil hrun.nonempty
  have hc := hrun.inside c List.mem_cons_self
  have hdigit : ¬ c.isDigit = true := fun hdigit => by simp [isAlpha_of_isDigit hdigit] at hc
  have hkind : LexemeKind.ofStart separator.char c = .identifier := by
    rw [LexemeKind.ofStart, if_neg hdigit, if_pos hc]
  rw [List.cons_append,
    lexemesFrom_run separator.char start (isBlank_of_isAlpha hc) hkind hrun,
    List.map_cons, readLexeme, hkind]
  rfl

theorem items_of_spells (h : Spells separator.char start text items) :
    (lexemesFrom separator.char start text).map Lexeme.item = items := by
  induction h with
  | nil => rw [lexemesFrom_nil]; rfl
  | blanks hrun h ih => rw [lexemesFrom_blanks separator.char hrun.inside, ih]
  | identifier hrun h ih => rw [items_of_letters hrun, ih]
  | number hrun hdigit hsingle h ih =>
    rw [items_of_numeric hrun, ih, readNumber_of_digit separator hrun.inside hdigit hsingle]
    rfl
  | malformed hrun hnot h ih =>
    rw [items_of_numeric hrun, ih, readNumber_of_malformed separator hrun.inside hnot]
    rfl
  | @symbol start s rest items h ih =>
    have hkind := LexemeKind.ofStart_symbol separator.char s
    rw [lexemesFrom_single separator.char start rest s.isBlank_char hkind rfl, List.map_cons, ih,
      readLexeme, hkind]
    rfl
  | @stray start c rest items hc h ih =>
    have hsymbol : Symbol.ofChar? c = none :=
      Option.eq_none_iff_forall_ne_some.mpr fun s hs => hc.symbol s (Symbol.char_of_ofChar? hs).symm
    have hnumeric := hc.numeric
    rw [isNumeric, Bool.or_eq_false_iff, decide_eq_false_iff_not] at hnumeric
    have hkind : LexemeKind.ofStart separator.char c = .unknown := by
      simp [LexemeKind.ofStart, hnumeric.1, hc.letter, hsymbol, hnumeric.2]
    rw [lexemesFrom_single separator.char start rest hc.blank hkind rfl, List.map_cons, ih,
      readLexeme, hkind]
    rfl

end Items

/-- The items of a source are the items that it spells, and it spells no others. -/
theorem spells_iff_items (source : String) (separator : Separator)
    (items : List (Except EvalError Located)) :
    Spells separator.char 0 source.toList items ↔
      (lexemes separator.char source).map Lexeme.item = items := by
  constructor
  · exact items_of_spells
  · rintro rfl
    obtain ⟨items, h⟩ := exists_spells separator.char source.toList 0
    rwa [lexemes, items_of_spells h]

end Reckoner

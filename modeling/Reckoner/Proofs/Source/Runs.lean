import Reckoner.Proofs.Decimal.Numeral
import Reckoner.Proofs.Source.Characters
import Reckoner.Proofs.Source.Positions

/-!
# Lexemes as runs

A number is taken in two steps and its separators are counted on the way. It comes to one run of
digits and separators, whichever of them it starts with, and the count decides nothing that reading
the run does not decide. So each lexeme is its first character and what carries its kind on.
-/
namespace Reckoner

/-- The kinds of lexemes, told apart by their first character. -/
inductive LexemeKind where
  | number
  | identifier
  | symbol (s : Symbol)
  | unknown
deriving DecidableEq

namespace LexemeKind

def ofStart (separator c : Char) : LexemeKind :=
  if c.isDigit then number
  else if c.isAlpha then identifier
  else match Symbol.ofChar? c with
    | some s => symbol s
    | none => if c = separator then number else unknown

/-- The characters that carry a lexeme of this kind on. -/
def continuesWith (separator : Char) : LexemeKind → Char → Bool
  | number, c => c.isDigit || c = separator
  | identifier, c => c.isAlpha
  | symbol _, _ | unknown, _ => false

end LexemeKind

/-- The token or fault that the lexeme `c :: rest` is. -/
def readLexeme (separator c : Char) (rest : List Char) : Except Fault Token :=
  match LexemeKind.ofStart separator c with
  | .number => readNumber separator (c :: rest)
  | .identifier => .ok (.identifier (String.ofList (c :: rest)))
  | .symbol s => .ok (.symbol s)
  | .unknown => .error (.unknownCharacter c)

theorem utf8Size_of_isDigit {c : Char} (h : c.isDigit = true) : c.utf8Size = 1 := by
  have hle : c.val ≤ '9'.val := by
    simp only [Char.isDigit, Bool.and_eq_true, decide_eq_true_eq] at h
    exact h.2
  exact Char.utf8Size_eq_one_iff.mpr (UInt32.le_trans hle (by decide))

namespace Cursor

/-- A bump by whole characters takes exactly these. -/
theorem within_byteLength (front back : List Char) :
    within (byteLength front) (front ++ back) = ⟨front, back⟩ := by
  induction front with
  | nil =>
    cases back with
    | nil => rfl
    | cons c cs => exact if_neg (Nat.not_le_of_gt c.utf8Size_pos)
  | cons c front ih =>
    rw [List.cons_append, within, byteLength_cons, if_pos (Nat.le_add_right _ _),
      Nat.add_sub_cancel_left, ih]

theorem bump_byteLength (slice front back : List Char) :
    (⟨slice, front ++ back⟩ : Cursor).bump (byteLength front) = ⟨slice ++ front, back⟩ := by
  simp only [bump, within_byteLength]

end Cursor

section Numbers

variable (separator : Char)

theorem Tally.through_eq (text : List Char) : ∀ tally : Tally,
    tally.through separator text =
      let run := text.takeWhile (LexemeKind.number.continuesWith separator)
      ⟨tally.separators + run.countP (!·.isDigit), tally.bytes + byteLength run⟩ := by
  induction text with
  | nil => exact fun tally => rfl
  | cons c cs ih =>
    intro tally
    rw [through]
    by_cases hdigit : c.isDigit = true
    · have hmore : LexemeKind.number.continuesWith separator c = true := by
        simp [LexemeKind.continuesWith, hdigit]
      simp [ih, List.takeWhile_cons_of_pos hmore, hdigit, byteLength_cons,
        utf8Size_of_isDigit hdigit, Nat.add_assoc]
    · rw [if_neg hdigit]
      by_cases hseparator : c = separator
      · have hmore : LexemeKind.number.continuesWith separator c = true := by
          simp [LexemeKind.continuesWith, hseparator]
        simp [if_pos hseparator, ih, List.takeWhile_cons_of_pos hmore, hdigit, byteLength_cons]
        omega
      · have hmore : ¬ LexemeKind.number.continuesWith separator c = true := by
          simp [LexemeKind.continuesWith, hdigit, hseparator]
        simp [if_neg hseparator, List.takeWhile_cons_of_neg hmore, byteLength]

/-- The character as a number is read: a point for the separator. -/
def pointed (c : Char) : Char := if c = separator then '.' else c

theorem readNumber_of_isNumeral {text : List Char}
    (h : Decimal.IsNumeral '.' (text.map (pointed separator))) :
    readNumber separator text =
      .ok (.number (Decimal.ofNumeral '.' (text.map (pointed separator))).toFloat) := by
  have hread : Decimal.ofText? (text.map fun c => if c = separator then '.' else c) = some _ :=
    Decimal.ofText?_of_isNumeral h
  rw [readNumber, hread]
  rfl

theorem readNumber_of_not_isNumeral {text : List Char}
    (h : ¬ Decimal.IsNumeral '.' (text.map (pointed separator))) :
    readNumber separator text = .error .malformedNumber := by
  have hread : Decimal.ofText? (text.map fun c => if c = separator then '.' else c) = none :=
    Decimal.ofText?_eq_none h
  rw [readNumber, hread]

/-- The separators that are counted are no more than the points when the number is read. -/
theorem readNumber_of_separators {c : Char} {digits run : List Char}
    (hrun : ∀ d ∈ run, LexemeKind.number.continuesWith separator d = true)
    (h : 1 < (if c = separator then 1 else 0) + run.countP (!·.isDigit)) :
    readNumber separator (c :: (digits ++ run)) = .error .malformedNumber := by
  have hle : run.countP (!·.isDigit) ≤
      (run.map (pointed separator)).count '.' := by
    rw [List.count_eq_countP, List.countP_map]
    refine List.countP_mono_left fun d hd hdigit => ?_
    have hmore := hrun d hd
    simp only [LexemeKind.continuesWith, Bool.or_eq_true, decide_eq_true_eq] at hmore
    have hseparator : d = separator := hmore.resolve_left (by simpa using hdigit)
    simp [pointed, hseparator]
  refine readNumber_of_not_isNumeral separator fun hnumeral => ?_
  have hsingle := hnumeral.single
  rw [List.map_cons, List.map_append, List.count_cons, List.count_append] at hsingle
  split at h
  · next hopening =>
    rw [pointed, if_pos hopening, if_pos (beq_self_eq_true _)] at hsingle
    omega
  · omega

/-- Behind its first character and further digits, a number takes one run and is read as a whole. -/
theorem scanNumber_eq (c : Char) (digits remainder : List Char) :
    scanNumber separator ⟨c :: digits, remainder⟩ =
      let more := LexemeKind.number.continuesWith separator
      let number := c :: (digits ++ remainder.takeWhile more)
      (⟨number, remainder.dropWhile more⟩, readNumber separator number) := by
  let more := LexemeKind.number.continuesWith separator
  have hbump : (⟨c :: digits, remainder⟩ : Cursor).bump (byteLength (remainder.takeWhile more)) =
      ⟨c :: (digits ++ remainder.takeWhile more), remainder.dropWhile more⟩ := by
    have := Cursor.bump_byteLength (c :: digits) (remainder.takeWhile more)
      (remainder.dropWhile more)
    rwa [List.takeWhile_append_dropWhile] at this
  have hrun : ∀ d ∈ remainder.takeWhile more, more d = true := fun d => List.mem_takeWhile_imp
  simp only [scanNumber, Tally.through_eq, Nat.zero_add, List.head?_cons, Option.some.injEq]
  rw [hbump]
  refine Prod.ext rfl (ite_eq_right_iff.mpr fun h => ?_)
  exact (readNumber_of_separators separator hrun h).symm

end Numbers

/-- What is taken is one run, for every kind of lexeme. -/
theorem scan_eq (separator c : Char) (cs : List Char) :
    scan separator c cs =
      let more := (LexemeKind.ofStart separator c).continuesWith separator
      (.run more c cs, readLexeme separator c (cs.takeWhile more)) := by
  have hnone : Cursor.run (fun _ => false) c cs = ⟨[c], cs⟩ := by
    cases cs <;> rfl
  by_cases hdigit : c.isDigit = true
  · have hkind : LexemeKind.ofStart separator c = .number := if_pos hdigit
    -- The digits behind the first are part of the run that the number is.
    have hdigits : ∀ d ∈ cs.takeWhile Char.isDigit,
        LexemeKind.number.continuesWith separator d = true := fun d hd => by
      simp [LexemeKind.continuesWith, List.mem_takeWhile_imp hd]
    have htake := congrArg (·.takeWhile (LexemeKind.number.continuesWith separator))
      (List.takeWhile_append_dropWhile (p := Char.isDigit) (l := cs))
    have hdrop := congrArg (·.dropWhile (LexemeKind.number.continuesWith separator))
      (List.takeWhile_append_dropWhile (p := Char.isDigit) (l := cs))
    simp only [List.takeWhile_append_of_pos hdigits, List.dropWhile_append_of_pos hdigits]
      at htake hdrop
    simp only [scan, if_pos hdigit, Cursor.run, scanNumber_eq, readLexeme, hkind, htake, hdrop]
  · by_cases halpha : c.isAlpha = true
    · have hkind : LexemeKind.ofStart separator c = .identifier := by
        rw [LexemeKind.ofStart, if_neg hdigit, if_pos halpha]
      simp only [scan, if_neg hdigit, if_pos halpha, readLexeme, hkind]
      rfl
    · cases hsymbol : Symbol.ofChar? c with
      | some s =>
        have hkind : LexemeKind.ofStart separator c = .symbol s := by
          simp only [LexemeKind.ofStart, if_neg hdigit, if_neg halpha, hsymbol]
        simp only [scan, if_neg hdigit, if_neg halpha, hsymbol, readLexeme, hkind]
        exact Prod.ext hnone.symm rfl
      | none =>
        by_cases hseparator : c = separator
        · have hkind : LexemeKind.ofStart separator c = .number := by
            simp only [LexemeKind.ofStart, if_neg hdigit, if_neg halpha, hsymbol, if_pos hseparator]
          simp only [scan, if_neg hdigit, if_neg halpha, hsymbol, if_pos hseparator, readLexeme,
            hkind, scanNumber_eq, List.nil_append, Cursor.run]
        · have hkind : LexemeKind.ofStart separator c = .unknown := by
            simp only [LexemeKind.ofStart, if_neg hdigit, if_neg halpha, hsymbol, if_neg hseparator]
          simp only [scan, if_neg hdigit, if_neg halpha, hsymbol, if_neg hseparator, readLexeme,
            hkind]
          exact Prod.ext hnone.symm rfl

/-- A lexeme is its first character and the characters that carry its kind on. -/
theorem lexemesFrom_cons (separator : Char) (start : Nat) {c : Char} (cs : List Char)
    (h : isBlank c = false) :
    lexemesFrom separator start (c :: cs) =
      let more := (LexemeKind.ofStart separator c).continuesWith separator
      let rest := cs.takeWhile more
      ⟨start, c :: rest, readLexeme separator c rest⟩ ::
        lexemesFrom separator (start + byteLength (c :: rest)) (cs.dropWhile more) := by
  rw [lexemesFrom_scan separator start cs h, scan_eq]
  rfl

theorem lexemesFrom_single (separator : Char) (start : Nat) {c : Char} {kind : LexemeKind}
    (rest : List Char) (hblank : isBlank c = false)
    (hkind : LexemeKind.ofStart separator c = kind)
    (hmore : kind.continuesWith separator = fun _ => false) :
    lexemesFrom separator start (c :: rest) =
      ⟨start, [c], readLexeme separator c []⟩ ::
        lexemesFrom separator (start + c.utf8Size) rest := by
  have hnone : rest.takeWhile (fun _ => false) = [] ∧ rest.dropWhile (fun _ => false) = rest := by
    cases rest <;> simp
  rw [lexemesFrom_cons separator start rest hblank]
  simp only [hkind, hmore, hnone]
  rfl

theorem readNumber_cases (separator : Char) (text : List Char) :
    (∃ value, readNumber separator text = .ok (.number value)) ∨
      readNumber separator text = .error .malformedNumber := by
  rw [readNumber]
  cases Decimal.ofText? (text.map fun c => if c = separator then '.' else c) with
  | some d => exact .inl ⟨d.toFloat, rfl⟩
  | none => exact .inr rfl

/-- An unknown character is all there is of its lexeme, and a name is its lexeme. -/
theorem text_of_mem {separator : Char} {start : Nat} {text : List Char} {l : Lexeme}
    (h : l ∈ lexemesFrom separator start text) :
    (∀ c, l.content = .error (.unknownCharacter c) → l.text = [c]) ∧
      ∀ name, l.content = .ok (.identifier name) → l.text = name.toList := by
  obtain ⟨front, c, cs, -, -, rfl⟩ := exists_scan_of_mem h
  simp only [scan_eq, Cursor.run, readLexeme]
  cases LexemeKind.ofStart separator c with
  | number =>
    rcases readNumber_cases separator (c :: cs.takeWhile
      (LexemeKind.number.continuesWith separator)) with ⟨value, hread⟩ | hread
    · simp [hread]
    · simp [hread]
  | identifier => simp
  | symbol s => simp
  | unknown => simp [LexemeKind.continuesWith]

/-- There is no blank in a lexeme, unless the separator is one. -/
theorem isBlank_of_mem_text {separator : Char} {start : Nat} {text : List Char} {l : Lexeme}
    (h : l ∈ lexemesFrom separator start text) (hseparator : isBlank separator = false) :
    ∀ c ∈ l.text, isBlank c = false := by
  obtain ⟨front, c, cs, -, hc, rfl⟩ := exists_scan_of_mem h
  simp only [scan_eq, Cursor.run, List.forall_mem_cons]
  refine ⟨hc, fun d hd => ?_⟩
  have hmore := List.mem_takeWhile_imp hd
  cases hkind : LexemeKind.ofStart separator c with
  | number =>
    rw [hkind, LexemeKind.continuesWith, Bool.or_eq_true, decide_eq_true_eq] at hmore
    rcases hmore with hdigit | rfl
    · exact isBlank_of_isDigit hdigit
    · exact hseparator
  | identifier => exact isBlank_of_isAlpha (by simpa [hkind, LexemeKind.continuesWith] using hmore)
  | symbol s => simp [hkind, LexemeKind.continuesWith] at hmore
  | unknown => simp [hkind, LexemeKind.continuesWith] at hmore

theorem lexemesFrom_blanks (separator : Char) {blanks : List Char}
    (h : ∀ c ∈ blanks, isBlank c = true) (rest : List Char) : ∀ start,
      lexemesFrom separator start (blanks ++ rest) =
        lexemesFrom separator (start + byteLength blanks) rest := by
  induction blanks with
  | nil => exact fun start => rfl
  | cons c blanks ih =>
    intro start
    rw [List.forall_mem_cons] at h
    rw [List.cons_append, lexemesFrom_blank separator start _ h.1, ih h.2, byteLength_cons,
      Nat.add_assoc]

/-- What no character of a class starts does not prolong a run of that class. -/
theorem takeWhile_append_of_head {p : Char → Bool} {behind : List Char}
    (h : ∀ c ∈ behind.head?, p c = false) (text : List Char) :
    (text ++ behind).takeWhile p = text.takeWhile p ∧
      (text ++ behind).dropWhile p = text.dropWhile p ++ behind := by
  induction text with
  | nil =>
    cases behind with
    | nil => exact ⟨rfl, rfl⟩
    | cons c cs => simp [h c rfl]
  | cons c text ih =>
    rw [List.cons_append]
    by_cases hc : p c = true
    · simp [hc, ih]
    · simp [hc]

/-- A maximal run of characters of one class, at the front of a text. -/
structure Run (ofClass : Char → Bool) (run rest : List Char) : Prop where
  nonempty : run ≠ []
  inside : ∀ c ∈ run, ofClass c = true
  maximal : ∀ c ∈ rest.head?, ofClass c = false

namespace Run

variable {ofClass : Char → Bool} {run rest : List Char}

theorem takeWhile_eq (h : Run ofClass run rest) : (run ++ rest).takeWhile ofClass = run := by
  rw [(takeWhile_append_of_head h.maximal run).1, List.takeWhile_eq_self_iff.mpr h.inside]

theorem dropWhile_eq (h : Run ofClass run rest) : (run ++ rest).dropWhile ofClass = rest := by
  rw [(takeWhile_append_of_head h.maximal run).2, List.dropWhile_eq_nil_iff.mpr h.inside,
    List.nil_append]

theorem of_cons (c : Char) (cs : List Char) (h : ofClass c = true) :
    Run ofClass (c :: cs.takeWhile ofClass) (cs.dropWhile ofClass) where
  nonempty := List.cons_ne_nil _ _
  inside := List.forall_mem_cons.mpr ⟨h, fun _ => List.mem_takeWhile_imp⟩
  maximal d hd := by
    have := List.head?_dropWhile_not ofClass cs
    rw [hd] at this
    simpa using this

theorem map {changedClass : Char → Bool} {change : Char → Char} (h : Run ofClass run rest)
    (hclass : ∀ c ∈ run ++ rest, changedClass (change c) = ofClass c) :
    Run changedClass (run.map change) (rest.map change) where
  nonempty := mt List.map_eq_nil_iff.mp h.nonempty
  inside d hd := by
    obtain ⟨c, hc, rfl⟩ := List.mem_map.mp hd
    rw [hclass c (List.mem_append_left _ hc), h.inside c hc]
  maximal d hd := by
    rw [List.head?_map] at hd
    obtain ⟨c, hc, rfl⟩ := Option.map_eq_some_iff.mp hd
    rw [hclass c (List.mem_append_right _ (List.mem_of_mem_head? hc)), h.maximal c hc]

end Run

theorem lexemesFrom_run (separator : Char) (start : Nat) {c : Char} {more rest : List Char}
    {kind : LexemeKind} (hblank : isBlank c = false) (hkind : LexemeKind.ofStart separator c = kind)
    (h : Run (kind.continuesWith separator) (c :: more) rest) :
    lexemesFrom separator start (c :: (more ++ rest)) =
      ⟨start, c :: more, readLexeme separator c more⟩ ::
        lexemesFrom separator (start + byteLength (c :: more)) rest := by
  have hc : kind.continuesWith separator c = true := h.inside c List.mem_cons_self
  have htake := h.takeWhile_eq
  have hdrop := h.dropWhile_eq
  rw [List.cons_append, List.takeWhile_cons_of_pos hc] at htake
  rw [List.cons_append, List.dropWhile_cons_of_pos hc] at hdrop
  rw [lexemesFrom_cons separator start _ hblank]
  simp only [hkind, hdrop, (List.cons.inj htake).2]

end Reckoner

import Reckoner.Proofs.Source.Characters
import Reckoner.Proofs.Source.Runs

/-!
# Joints between texts

Two texts that follow each other are cut as each of them alone, as long as no lexeme reaches from
the first into the second. Nothing reaches over a character that carries no lexeme on, such as a
blank or a symbol.
-/
namespace Reckoner

namespace LexemeKind

theorem ofStart_symbol (separator : Char) (s : Symbol) : ofStart separator s.char = symbol s := by
  simp [ofStart, s.isDigit_char, s.isAlpha_char, Symbol.ofChar?_char]

variable (kind : LexemeKind) (separator : Separator)

/-- What is reserved is no separator, and carries a lexeme on only if it is a digit or a letter. -/
theorem continuesWith_of_isReserved {c : Char} (h : isReserved c = true)
    (hdigit : c.isDigit = false) (halpha : c.isAlpha = false) :
    kind.continuesWith separator.char c = false := by
  have hseparator : c ≠ separator.char := by
    rintro rfl
    exact Bool.false_ne_true (separator.free.symm.trans h)
  cases kind with
  | number => simp [continuesWith, hdigit, hseparator]
  | identifier => exact halpha
  | symbol s => rfl
  | unknown => rfl

theorem continuesWith_of_isBlank {c : Char} (h : isBlank c = true) :
    kind.continuesWith separator.char c = false := by
  refine kind.continuesWith_of_isReserved separator (isReserved_of_isBlank h) ?_ ?_
  · exact Bool.eq_false_iff.mpr fun hc =>
      Bool.false_ne_true ((isBlank_of_isDigit hc).symm.trans h)
  · exact Bool.eq_false_iff.mpr fun hc =>
      Bool.false_ne_true ((isBlank_of_isAlpha hc).symm.trans h)

theorem continuesWith_symbol (s : Symbol) : kind.continuesWith separator.char s.char = false :=
  kind.continuesWith_of_isReserved separator s.isReserved_char s.isDigit_char s.isAlpha_char

end LexemeKind

theorem lexemesFrom_symbol (separator : Char) (start : Nat) (s : Symbol) (text : List Char) :
    lexemesFrom separator start (s.char :: text) =
      ⟨start, [s.char], .ok (.symbol s)⟩ :: lexemesFrom separator (start + 1) text := by
  have hkind := LexemeKind.ofStart_symbol separator s
  have hsize : s.char.utf8Size = 1 := by
    cases s <;> rfl
  rw [lexemesFrom_single separator start text s.isBlank_char hkind rfl, readLexeme, hkind, hsize]

/-- What stands behind a text is not taken along unless it carries on what the text ends with. -/
theorem scan_append {separator c : Char} {cs back : List Char}
    (h : let more := (LexemeKind.ofStart separator c).continuesWith separator
      (cs ++ back).takeWhile more = cs.takeWhile more ∧
        (cs ++ back).dropWhile more = cs.dropWhile more ++ back) :
    scan separator c (cs ++ back) =
      (⟨(scan separator c cs).1.slice, (scan separator c cs).1.remainder ++ back⟩,
        (scan separator c cs).2) := by
  simp only [scan_eq, Cursor.run, h.1, h.2]

theorem lexemesFrom_cons_append {separator c : Char} {cs back : List Char} {start : Nat}
    (hblank : isBlank c = false)
    (hscan : scan separator c (cs ++ back) =
      (⟨(scan separator c cs).1.slice, (scan separator c cs).1.remainder ++ back⟩,
        (scan separator c cs).2))
    (hrest : lexemesFrom separator (start + byteLength (scan separator c cs).1.slice)
        ((scan separator c cs).1.remainder ++ back) =
      lexemesFrom separator (start + byteLength (scan separator c cs).1.slice)
          (scan separator c cs).1.remainder ++
        lexemesFrom separator (start + byteLength (c :: cs)) back) :
    lexemesFrom separator start (c :: cs ++ back) =
      lexemesFrom separator start (c :: cs) ++
        lexemesFrom separator (start + byteLength (c :: cs)) back := by
  rw [List.cons_append, lexemesFrom_scan separator start _ hblank,
    lexemesFrom_scan separator start cs hblank, hscan, List.cons_append]
  exact congrArg _ hrest

/-- A text is cut apart from what follows if that starts with nothing that carries a lexeme on. -/
theorem lexemesFrom_append_of_head {separator : Char} {back : List Char}
    (h : ∀ c ∈ back.head?, ∀ kind : LexemeKind, kind.continuesWith separator c = false)
    (start : Nat) (front : List Char) :
    lexemesFrom separator start (front ++ back) =
      lexemesFrom separator start front ++
        lexemesFrom separator (start + byteLength front) back := by
  fun_induction lexemesFrom separator start front with
  | case1 start => rfl
  | case2 start c cs hblank ih =>
    rw [List.cons_append, lexemesFrom_blank separator start _ hblank, ih, byteLength_cons,
      Nat.add_assoc]
  | case3 start c cs hblank taken ih =>
    have hlength : byteLength taken.1.slice + byteLength taken.1.remainder =
        byteLength (c :: cs) := byteLength_scan separator c cs
    rw [Nat.add_assoc, hlength] at ih
    have := lexemesFrom_cons_append (by simpa using hblank)
      (scan_append (takeWhile_append_of_head (fun d hd => h d hd _) cs)) ih
    rwa [lexemesFrom_scan separator start cs (by simpa using hblank)] at this

theorem lexemesFrom_bracketed (separator : Separator) (start : Nat) (text rest : List Char) :
    lexemesFrom separator.char start ('(' :: (text ++ ')' :: rest)) =
      ⟨start, ['('], .ok (.symbol .lparen)⟩ :: (lexemesFrom separator.char (start + 1) text ++
        ⟨start + 1 + byteLength text, [')'], .ok (.symbol .rparen)⟩ ::
          lexemesFrom separator.char (start + 1 + byteLength text + 1) rest) := by
  have hhead : ∀ c ∈ (')' :: rest).head?, ∀ kind : LexemeKind,
      kind.continuesWith separator.char c = false := by
    rintro c ⟨⟩ kind
    exact kind.continuesWith_symbol separator .rparen
  refine (lexemesFrom_symbol separator.char start .lparen _).trans (congrArg _ ?_)
  rw [lexemesFrom_append_of_head hhead]
  exact congrArg _ (lexemesFrom_symbol separator.char _ .rparen rest)

/-- A run that ends with the text in front of it ends there whatever follows. -/
theorem takeWhile_append_of_byteLength {p : Char → Bool} {back : List Char} (text : List Char)
    (h : byteLength ((text ++ back).takeWhile p) ≤ byteLength text) :
    (text ++ back).takeWhile p = text.takeWhile p ∧
      (text ++ back).dropWhile p = text.dropWhile p ++ back := by
  induction text with
  | nil =>
    cases back with
    | nil => exact ⟨rfl, rfl⟩
    | cons c cs =>
      by_cases hc : p c = true
      · have := c.utf8Size_pos
        rw [List.nil_append, List.takeWhile_cons_of_pos hc, byteLength_cons] at h
        change c.utf8Size + _ ≤ 0 at h
        omega
      · simp [hc]
  | cons c text ih =>
    by_cases hc : p c = true
    · rw [List.cons_append, List.takeWhile_cons_of_pos hc, byteLength_cons, byteLength_cons] at h
      simp [hc, ih (Nat.le_of_add_le_add_left h)]
    · simp [hc]

/-- A source is cut at every place that no lexeme reaches across. -/
theorem lexemesFrom_append_of_boundary {separator : Char} {back : List Char} (start : Nat)
    (front : List Char)
    (h : ∀ l ∈ lexemesFrom separator start (front ++ back),
      l.stop ≤ start + byteLength front ∨ start + byteLength front ≤ l.start) :
    lexemesFrom separator start (front ++ back) =
      lexemesFrom separator start front ++
        lexemesFrom separator (start + byteLength front) back := by
  fun_induction lexemesFrom separator start front with
  | case1 start => rfl
  | case2 start c cs hblank ih =>
    rw [List.cons_append, lexemesFrom_blank separator start _ hblank, byteLength_cons,
      ← Nat.add_assoc] at h
    rw [List.cons_append, lexemesFrom_blank separator start _ hblank, ih h, byteLength_cons,
      Nat.add_assoc]
  | case3 start c cs hblank taken ih =>
    have hblank : isBlank c = false := by simpa using hblank
    have hlength : byteLength taken.1.slice + byteLength taken.1.remainder =
        byteLength (c :: cs) := byteLength_scan separator c cs
    -- The lexeme in front ends within the text in front, for it starts there.
    have hfirst := h ⟨start, (scan separator c (cs ++ back)).1.slice, _⟩
      (by rw [List.cons_append, lexemesFrom_scan separator start _ hblank]
          exact List.mem_cons_self)
    have hpos := c.utf8Size_pos
    simp only [Lexeme.stop, scan_eq, Cursor.run, byteLength_cons] at hfirst
    have hrun : byteLength ((cs ++ back).takeWhile
        ((LexemeKind.ofStart separator c).continuesWith separator)) ≤ byteLength cs := by
      omega
    have hscan := scan_append (takeWhile_append_of_byteLength cs hrun)
    rw [List.cons_append, lexemesFrom_scan separator start _ hblank, hscan] at h
    rw [Nat.add_assoc, hlength] at ih
    have := lexemesFrom_cons_append hblank hscan (ih fun l hl => h l (List.mem_cons_of_mem _ hl))
    rwa [lexemesFrom_scan separator start cs hblank] at this

end Reckoner

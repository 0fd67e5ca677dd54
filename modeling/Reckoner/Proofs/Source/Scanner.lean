import Reckoner.Proofs.Source.Runs

/-!
# One lexeme at a time

A source can be cut by a scanner that moves forward and hands out one lexeme at each call. Main
statement: the calls hand out the lexemes of the source in turn, faulty ones included, and once all
are handed out the scanner stands at the end of the source and hands out nothing more.
-/
namespace Reckoner

/-- A source while it is cut: the byte offset that was reached and the text behind it. -/
structure Scanner where
  offset : Nat
  text : List Char
deriving DecidableEq

namespace Scanner

def ofSource (source : String) : Scanner := ⟨0, source.toList⟩

def stop (scanner : Scanner) : Nat := scanner.offset + byteLength scanner.text

variable (separator : Char)

/-- Passes over blanks and takes the lexeme behind them, unless nothing is left. -/
def next (scanner : Scanner) : Option Lexeme × Scanner :=
  let start := scanner.offset + byteLength (scanner.text.takeWhile isBlank)
  match scanner.text.dropWhile isBlank with
  | [] => (none, ⟨start, []⟩)
  | c :: cs =>
    let taken := scan separator c cs
    (some ⟨start, taken.1.slice, taken.2⟩,
      ⟨start + byteLength taken.1.slice, taken.1.remainder⟩)

def after (scanner : Scanner) : Nat → Scanner
  | 0 => scanner
  | k + 1 => after (scanner.next separator).2 k

def lexemes (scanner : Scanner) : List Lexeme :=
  lexemesFrom separator scanner.offset scanner.text

/-- A call hands out the next lexeme, or nothing if there is none, and then only blanks were
left. -/
theorem next_cases (scanner : Scanner) :
    (scanner.lexemes separator = [] ∧
        scanner.next separator = (none, ⟨scanner.stop, []⟩)) ∨
      ∃ l behind, scanner.next separator = (some l, behind) ∧
        scanner.lexemes separator = l :: behind.lexemes separator ∧
        behind.stop = scanner.stop := by
  obtain ⟨offset, text⟩ := scanner
  let start := offset + byteLength (text.takeWhile isBlank)
  have htext := List.takeWhile_append_dropWhile (p := isBlank) (l := text)
  have hblanks : ∀ c ∈ text.takeWhile isBlank, isBlank c = true := fun c => List.mem_takeWhile_imp
  have hlexemes : lexemesFrom separator offset text =
      lexemesFrom separator start (text.dropWhile isBlank) := by
    rw [← lexemesFrom_blanks separator hblanks, htext]
  have hlength := byteLength_append (text.takeWhile isBlank) (text.dropWhile isBlank)
  rw [htext] at hlength
  cases hrest : text.dropWhile isBlank with
  | nil =>
    rw [hrest, lexemesFrom_nil] at hlexemes
    rw [hrest, List.append_nil] at htext
    exact .inl ⟨hlexemes, by simp only [next, hrest, htext, stop]⟩
  | cons c cs =>
    let taken := scan separator c cs
    have hblank : isBlank c = false := by
      have := List.head?_dropWhile_not isBlank text
      simpa [hrest] using this
    have hscan : byteLength taken.1.slice + byteLength taken.1.remainder =
        byteLength (c :: cs) := byteLength_scan separator c cs
    rw [hrest] at hlength
    rw [hrest, lexemesFrom_scan separator start cs hblank] at hlexemes
    refine .inr ⟨⟨start, taken.1.slice, taken.2⟩,
      ⟨start + byteLength taken.1.slice, taken.1.remainder⟩, ?_, hlexemes, ?_⟩
    · simp only [next, hrest, start, taken]
    · simp only [stop, start]
      omega

theorem after_end (offset k : Nat) :
    after separator ⟨offset, []⟩ k = ⟨offset, []⟩ := by
  induction k with
  | zero => rfl
  | succ k ih => exact ih

theorem next_after (scanner : Scanner) (k : Nat) :
    ((scanner.after separator k).next separator).1 = (scanner.lexemes separator)[k]? := by
  induction k generalizing scanner with
  | zero =>
    rcases scanner.next_cases separator with ⟨hnil, hnext⟩ | ⟨l, behind, hnext, hcons, -⟩
    · rw [after, hnext, hnil, List.getElem?_nil]
    · rw [after, hnext, hcons, List.getElem?_cons_zero]
  | succ k ih =>
    rcases scanner.next_cases separator with ⟨hnil, hnext⟩ | ⟨l, behind, hnext, hcons, -⟩
    · rw [after, hnext, after_end, hnil, List.getElem?_nil]
      rfl
    · rw [after, hnext, ih, hcons, List.getElem?_cons_succ]

/-- After a call for every lexeme and one more, the scanner stands at the end. -/
theorem after_lexemes (scanner : Scanner) (k : Nat)
    (h : (scanner.lexemes separator).length < k) :
    scanner.after separator k = ⟨scanner.stop, []⟩ := by
  induction k generalizing scanner with
  | zero => exact absurd h (Nat.not_lt_zero _)
  | succ k ih =>
    rcases scanner.next_cases separator with ⟨hnil, hnext⟩ | ⟨l, behind, hnext, hcons, hstop⟩
    · rw [after, hnext, after_end]
    · rw [hcons, List.length_cons] at h
      rw [after, hnext, ih behind (Nat.lt_of_succ_lt_succ h), hstop]

end Scanner

end Reckoner

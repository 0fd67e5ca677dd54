import Reckoner.Proofs.Source.Scanner

/-!
# Cutting loses nothing

Whatever character separates the parts of a number, even one that means something else, the lexemes
of a source are pieces of it, in order and apart, and between them stand only blanks. Main
statement: cutting is lossless, comes to the end of every source and stops there.
-/
namespace Reckoner

theorem utf8ByteSize_ofList (text : List Char) :
    (String.ofList text).utf8ByteSize = byteLength text := by
  induction text with
  | nil => simp [byteLength]
  | cons c text ih =>
    rw [← List.singleton_append, String.ofList_append, String.utf8ByteSize_append, ih,
      byteLength_append]
    simp [byteLength]

theorem byteLength_toList (text : String) : byteLength text.toList = text.utf8ByteSize := by
  rw [← utf8ByteSize_ofList, String.ofList_toList]

section Lexemes

variable {separator : Char} {start : Nat} {text : List Char} {l : Lexeme}

/-- A lexeme is a piece of the text, from its start to its stop. -/
theorem slice_of_mem (h : l ∈ lexemesFrom separator start text) :
    ∃ front back, text = front ++ l.text ++ back ∧ l.start = start + byteLength front := by
  obtain ⟨front, c, cs, rfl, -, rfl⟩ := exists_scan_of_mem h
  obtain ⟨more, hslice, hmore⟩ := scan_slice separator c cs
  refine ⟨front, (scan separator c cs).1.remainder, ?_, rfl⟩
  rw [hslice, List.append_assoc, List.cons_append, hmore]

/-- The separator is never unknown. -/
theorem ne_separator_of_unknown {c : Char} (h : l ∈ lexemesFrom separator start text)
    (hc : l.content = .error (.unknownCharacter c)) : c ≠ separator := by
  obtain ⟨front, d, ds, -, -, rfl⟩ := exists_scan_of_mem h
  rw [scan_eq] at hc
  simp only [readLexeme] at hc
  split at hc
  · rcases readNumber_cases separator (d :: ds.takeWhile
      ((LexemeKind.ofStart separator d).continuesWith separator)) with ⟨value, hread⟩ | hread <;>
      rw [hread] at hc <;> cases hc
  · cases hc
  · cases hc
  · next hkind =>
    cases hc
    rintro rfl
    simp only [LexemeKind.ofStart, if_true] at hkind
    split at hkind
    · cases hkind
    · split at hkind
      · cases hkind
      · split at hkind <;> cases hkind

theorem isBlank_of_outside {i : Nat} (hstart : start ≤ i) (hstop : i < start + byteLength text)
    (h : ∀ l ∈ lexemesFrom separator start text, i < l.start ∨ l.stop ≤ i) :
    ∃ front c back, text = front ++ c :: back ∧ isBlank c = true ∧
      start + byteLength front ≤ i ∧ i < start + byteLength front + c.utf8Size := by
  fun_induction lexemesFrom separator start text with
  | case1 start => exact absurd hstop (Nat.not_lt_of_le hstart)
  | case2 start c cs hblank ih =>
    by_cases hhere : i < start + c.utf8Size
    · exact ⟨[], c, cs, rfl, hblank, hstart, hhere⟩
    · rw [byteLength_cons] at hstop
      obtain ⟨front, d, back, rfl, hd, hle, hlt⟩ :=
        ih (Nat.le_of_not_lt hhere) (by omega) h
      refine ⟨c :: front, d, back, rfl, hd, ?_, ?_⟩ <;> rw [byteLength_cons] <;> omega
  | case3 start c cs hblank taken ih =>
    have hlength : byteLength taken.1.slice + byteLength taken.1.remainder =
        byteLength (c :: cs) := byteLength_scan separator c cs
    rw [List.forall_mem_cons] at h
    have hbehind : start + byteLength taken.1.slice ≤ i :=
      h.1.resolve_left (Nat.not_lt_of_le hstart)
    obtain ⟨front, d, back, hremainder, hd, hle, hlt⟩ := ih hbehind (by omega) h.2
    obtain ⟨more, hslice, hmore⟩ := scan_slice separator c cs
    refine ⟨taken.1.slice ++ front, d, back, ?_, hd, ?_, ?_⟩
    · rw [List.append_assoc, ← hremainder, hslice, List.cons_append, hmore]
    · rw [byteLength_append]
      omega
    · rw [byteLength_append]
      omega

end Lexemes

/-- The bytes that are counted along a number are those of whole characters that are there. -/
theorem scanNumber_bump (separator : Char) (cursor : Cursor) :
    ∃ front back, cursor.remainder = front ++ back ∧
      (∀ separators, (Tally.through separator ⟨separators, 0⟩ cursor.remainder).bytes =
        byteLength front) ∧
      (scanNumber separator cursor).1 = ⟨cursor.slice ++ front, back⟩ := by
  let more := LexemeKind.number.continuesWith separator
  have hsplit : cursor.remainder =
      cursor.remainder.takeWhile more ++ cursor.remainder.dropWhile more :=
    List.takeWhile_append_dropWhile.symm
  have hbytes (separators : Nat) :
      (Tally.through separator ⟨separators, 0⟩ cursor.remainder).bytes =
        byteLength (cursor.remainder.takeWhile more) := by
    rw [Tally.through_eq]
    exact Nat.zero_add _
  refine ⟨_, _, hsplit, hbytes, ?_⟩
  have hbump := Cursor.bump_byteLength cursor.slice (cursor.remainder.takeWhile more)
    (cursor.remainder.dropWhile more)
  rw [← hsplit] at hbump
  rw [scanNumber, hbytes]
  exact hbump

/-- For every separator, also one with another meaning, the lexemes of a source are pieces of it
that start and stop between characters, in order and apart, and every byte outside them is one of a
blank. Calls of the scanner hand them out in turn, come to the end of the source and then hand out
nothing more. A number is counted along whole characters that are there, and an unknown character
is one character and not the separator. -/
theorem lexemes_lossless (separator : Char) (source : String) :
    (∀ l ∈ lexemes separator source, l.start < l.stop ∧ l.stop ≤ source.utf8ByteSize ∧
      ∃ front back, source = front ++ String.ofList l.text ++ back ∧
        l.start = front.utf8ByteSize ∧ l.stop = (front ++ String.ofList l.text).utf8ByteSize) ∧
    (lexemes separator source).Pairwise (·.stop ≤ ·.start) ∧
    (∀ i < source.utf8ByteSize,
      (∀ l ∈ lexemes separator source, i < l.start ∨ l.stop ≤ i) →
      ∃ front c back, source = front ++ String.singleton c ++ back ∧ isBlank c = true ∧
        front.utf8ByteSize ≤ i ∧ i < (front ++ String.singleton c).utf8ByteSize) ∧
    (∀ k, (((Scanner.ofSource source).after separator k).next separator).1 =
      (lexemes separator source)[k]?) ∧
    (∀ k, (lexemes separator source).length < k →
      (Scanner.ofSource source).after separator k = ⟨source.utf8ByteSize, []⟩) ∧
    (∀ cursor : Cursor, ∃ front back, cursor.remainder = front ++ back ∧
      (∀ separators, (Tally.through separator ⟨separators, 0⟩ cursor.remainder).bytes =
        byteLength front) ∧
      (scanNumber separator cursor).1 = ⟨cursor.slice ++ front, back⟩) ∧
    (∀ l ∈ lexemes separator source, ∀ c, l.content = .error (.unknownCharacter c) →
      l.text = [c] ∧ c ≠ separator) := by
  refine ⟨fun l hl => ?_, spans_pairwise separator 0 source.toList, fun i hi houtside => ?_,
    Scanner.next_after separator (.ofSource source), fun k hk => ?_, scanNumber_bump separator,
    fun l hl c hc => ⟨(text_of_mem hl).1 c hc, ne_separator_of_unknown hl hc⟩⟩
  · obtain ⟨front, back, htext, hstart⟩ := slice_of_mem hl
    have hwithin := (span_within hl).2
    rw [Nat.zero_add, byteLength_toList] at hwithin
    rw [Nat.zero_add] at hstart
    refine ⟨Lexeme.start_lt_stop (text_ne_nil_of_mem hl), hwithin, .ofList front, .ofList back,
      ?_, ?_, ?_⟩
    · rw [← String.ofList_append, ← String.ofList_append, ← htext, String.ofList_toList]
    · rw [utf8ByteSize_ofList, hstart]
    · rw [← String.ofList_append, utf8ByteSize_ofList, byteLength_append, Lexeme.stop, hstart]
  · rw [← byteLength_toList] at hi
    obtain ⟨front, c, back, htext, hc, hle, hlt⟩ :=
      isBlank_of_outside (Nat.zero_le i) (by rwa [Nat.zero_add]) houtside
    rw [Nat.zero_add] at hle hlt
    refine ⟨.ofList front, c, .ofList back, ?_, hc, ?_, ?_⟩
    · rw [String.singleton_eq_ofList, ← String.ofList_append, ← String.ofList_append,
        List.append_assoc, List.singleton_append, ← htext, String.ofList_toList]
    · rwa [utf8ByteSize_ofList]
    · rwa [String.utf8ByteSize_append, utf8ByteSize_ofList, String.utf8ByteSize_singleton]
  · rw [Scanner.after_lexemes separator (.ofSource source) k hk, Scanner.stop, Scanner.ofSource,
      Nat.zero_add, byteLength_toList]

end Reckoner

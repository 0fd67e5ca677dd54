import Reckoner.CommandLine.Batch

/-!
# Lines

How bytes are cut into lines, and which lines are UTF-8. A byte below 128 is a character of its own,
so a line stays readable when its carriage return is dropped. Main statements: the cutting is the
only one that the ends of lines allow, and a line feed between two inputs keeps their lines apart.
-/
namespace Reckoner.CommandLine

open Text (bytes)

/-- `Cut input parts`: the input is these lines, each with a line feed or a carriage return and a
line feed behind it, or the last one with nothing behind it. -/
inductive Cut : List UInt8 → List (List UInt8) → Prop where
  | nothing : Cut [] []
  | last {line : List UInt8} (hne : line ≠ []) (hlf : 10 ∉ line) : Cut line [line]
  | lineFeed {line rest : List UInt8} {more : List (List UInt8)} (hlf : 10 ∉ line)
      (hcr : line.getLast? ≠ some 13) (h : Cut rest more) :
      Cut (line ++ 10 :: rest) (line :: more)
  | carriageReturn {line rest : List UInt8} {more : List (List UInt8)} (hlf : 10 ∉ line)
      (h : Cut rest more) : Cut (line ++ 13 :: 10 :: rest) (line :: more)

section Cutting

variable {b : UInt8} {line rest input : List UInt8} {more parts : List (List UInt8)}

theorem lines_lf (rest : List UInt8) : lines (10 :: rest) = [] :: lines rest := by
  rw [lines, if_pos rfl]

theorem lines_cr_lf (rest : List UInt8) : lines (13 :: 10 :: rest) = [] :: lines rest := by
  rw [lines, if_neg (by decide), if_pos ⟨rfl, rfl⟩, lines_lf]

theorem lines_cons (hb : b ≠ 10) (hnext : b = 13 → rest.head? ≠ some 10)
    (h : lines rest = line :: more) : lines (b :: rest) = (b :: line) :: more := by
  rw [lines, if_neg hb, if_neg fun hboth => hnext hboth.1 hboth.2, h]

theorem lines_line_lf (hlf : 10 ∉ line) (hcr : line.getLast? ≠ some 13) (rest : List UInt8) :
    lines (line ++ 10 :: rest) = line :: lines rest := by
  induction line with
  | nil => exact lines_lf rest
  | cons b line ih =>
    rw [List.mem_cons, not_or] at hlf
    cases line with
    | nil =>
      exact lines_cons (Ne.symm hlf.1) (fun hb => absurd (congrArg some hb) hcr) (lines_lf rest)
    | cons c line =>
      rw [List.getLast?_cons_cons] at hcr
      refine lines_cons (Ne.symm hlf.1) (fun _ hc => hlf.2 ?_) (ih hlf.2 hcr)
      exact List.mem_cons.mpr (.inl (Option.some.inj hc).symm)

theorem lines_line_cr_lf (hlf : 10 ∉ line) (rest : List UInt8) :
    lines (line ++ 13 :: 10 :: rest) = line :: lines rest := by
  induction line with
  | nil => exact lines_cr_lf rest
  | cons b line ih =>
    rw [List.mem_cons, not_or] at hlf
    refine lines_cons (Ne.symm hlf.1) (fun _ hhead => ?_) (ih hlf.2)
    cases line with
    | nil => cases hhead
    | cons c line => exact hlf.2 (List.mem_cons.mpr (.inl (Option.some.inj hhead).symm))

theorem lines_last (hne : line ≠ []) (hlf : 10 ∉ line) : lines line = [line] := by
  induction line with
  | nil => exact absurd rfl hne
  | cons b line ih =>
    rw [List.mem_cons, not_or] at hlf
    cases line with
    | nil =>
      rw [lines, if_neg (Ne.symm hlf.1), if_neg (by simp)]
      rfl
    | cons c line =>
      refine lines_cons (Ne.symm hlf.1) (fun _ hc => hlf.2 ?_) (ih (List.cons_ne_nil _ _) hlf.2)
      exact List.mem_cons.mpr (.inl (Option.some.inj hc).symm)

theorem Cut.lines_eq (h : Cut input parts) : lines input = parts := by
  induction h with
  | nothing => rfl
  | last hne hlf => exact lines_last hne hlf
  | lineFeed hlf hcr h ih => rw [lines_line_lf hlf hcr, ih]
  | carriageReturn hlf h ih => rw [lines_line_cr_lf hlf, ih]

theorem Cut.exists_cons (hb : b ≠ 10) (h : Cut rest parts) : ∃ parts', Cut (b :: rest) parts' := by
  have hmem {line : List UInt8} (hlf : 10 ∉ line) : 10 ∉ b :: line := by
    rw [List.mem_cons, not_or]
    exact ⟨Ne.symm hb, hlf⟩
  cases h with
  | nothing => exact ⟨_, .last (List.cons_ne_nil b []) (hmem List.not_mem_nil)⟩
  | last hne hlf => exact ⟨_, .last (List.cons_ne_nil _ _) (hmem hlf)⟩
  | @lineFeed line rest more hlf hcr h =>
    by_cases hlast : (b :: line).getLast? = some 13
    · -- Only a carriage return right in front of the line feed is no part of the line.
      cases line with
      | nil =>
        obtain rfl : b = 13 := Option.some.inj hlast
        have hempty : 10 ∉ ([] : List UInt8) := List.not_mem_nil
        exact ⟨_, .carriageReturn hempty h⟩
      | cons c line => exact absurd (List.getLast?_cons_cons ▸ hlast) hcr
    · exact ⟨_, .lineFeed (hmem hlf) hlast h⟩
  | carriageReturn hlf h => exact ⟨_, .carriageReturn (hmem hlf) h⟩

theorem exists_cut (input : List UInt8) : ∃ parts, Cut input parts := by
  induction input with
  | nil => exact ⟨_, .nothing⟩
  | cons b rest ih =>
    obtain ⟨parts, h⟩ := ih
    by_cases hb : b = 10
    · subst hb
      have hempty : 10 ∉ ([] : List UInt8) := List.not_mem_nil
      exact ⟨_, .lineFeed hempty (by simp) h⟩
    · exact h.exists_cons hb

/-- Every input is cut in one way, into its lines. -/
theorem cut_iff : Cut input parts ↔ parts = lines input := by
  obtain ⟨parts', h⟩ := exists_cut input
  refine ⟨fun h => h.lines_eq.symm, ?_⟩
  rintro rfl
  rwa [h.lines_eq]

theorem lines_append_lf (front behind : List UInt8) :
    lines (front ++ 10 :: behind) = lines (front ++ [10]) ++ lines behind := by
  have hcut := cut_iff.mpr (Eq.refl (lines front))
  generalize lines front = parts at hcut
  induction hcut with
  | nothing => simp only [List.nil_append, lines_lf, lines, List.cons_append]
  | @last line hne hlf =>
    by_cases hcr : line.getLast? = some 13
    · obtain ⟨line, rfl⟩ := List.getLast?_eq_some_iff.mp hcr
      have hlf : 10 ∉ line := fun h => hlf (List.mem_append_left _ h)
      simp only [List.append_assoc, lines_line_cr_lf hlf, lines, List.cons_append,
        List.nil_append]
    · simp only [lines_line_lf hlf hcr, lines, List.cons_append, List.nil_append]
  | lineFeed hlf hcr h ih =>
    simp only [List.append_assoc, List.cons_append, lines_line_lf hlf hcr, ih]
  | carriageReturn hlf h ih =>
    simp only [List.append_assoc, List.cons_append, lines_line_cr_lf hlf, ih]

/-- A line feed at the end changes the last line at most: it loses its carriage return. -/
theorem mem_lines_append_lf (front : List UInt8) :
    ∀ line ∈ lines (front ++ [10]),
      line = [] ∨ line ∈ lines front ∨ line ++ [13] ∈ lines front := by
  have hcut := cut_iff.mpr (Eq.refl (lines front))
  generalize lines front = parts at hcut
  induction hcut with
  | nothing => simp [lines]
  | @last line hne hlf =>
    by_cases hcr : line.getLast? = some 13
    · obtain ⟨line, rfl⟩ := List.getLast?_eq_some_iff.mp hcr
      have hlf : 10 ∉ line := fun h => hlf (List.mem_append_left _ h)
      simp [lines_line_cr_lf hlf, lines]
    · simp [lines_line_lf hlf hcr, lines]
  | lineFeed hlf hcr h ih =>
    rw [List.append_assoc, List.cons_append, lines_line_lf hlf hcr, List.forall_mem_cons]
    exact ⟨.inr (.inl List.mem_cons_self), fun part hpart =>
      (ih part hpart).imp_right (.imp (List.mem_cons_of_mem _) (List.mem_cons_of_mem _))⟩
  | carriageReturn hlf h ih =>
    rw [List.append_assoc, List.cons_append, List.cons_append, lines_line_cr_lf hlf,
      List.forall_mem_cons]
    exact ⟨.inr (.inl List.mem_cons_self), fun part hpart =>
      (ih part hpart).imp_right (.imp (List.mem_cons_of_mem _) (List.mem_cons_of_mem _))⟩

end Cutting

section Utf8

def Readable (line : List UInt8) : Prop := ∃ text, line = bytes text

theorem bytes_eq (text : String) : bytes text = text.toList.flatMap String.utf8EncodeChar := by
  rw [bytes, String.toUTF8_eq_toByteArray, ← String.ofList_toList (s := text),
    String.toByteArray_ofList, List.utf8Encode, String.toList_ofList]
  simp

/-- A byte below 128 is all of the character that it belongs to. -/
theorem eq_of_mem_utf8EncodeChar {c : Char} {b : UInt8} (h : b ∈ String.utf8EncodeChar c)
    (hb : b.toNat < 128) : String.utf8EncodeChar c = [b] ∧ c.toNat = b.toNat := by
  rw [String.utf8EncodeChar] at h ⊢
  by_cases hc : c.toNat ≤ 0x7f
  · simp only [Char.toNat_val, if_pos hc, List.mem_singleton] at h ⊢
    subst h
    exact ⟨rfl, by rw [UInt8.toNat_ofNat', Nat.mod_eq_of_lt (by omega)]⟩
  · -- Every byte of a longer encoding has its highest bit set.
    have hhigh {n : Nat} (hlow : 128 ≤ n) (hbyte : n < 256) : 128 ≤ (UInt8.ofNat n).toNat := by
      rwa [UInt8.toNat_ofNat', Nat.mod_eq_of_lt hbyte]
    have hle : 128 ≤ b.toNat := by
      simp only [Char.toNat_val, if_neg hc] at h
      split at h
      · simp only [List.mem_cons, List.not_mem_nil, or_false] at h
        rcases h with rfl | rfl <;> exact hhigh (by omega) (by omega)
      · split at h
        · simp only [List.mem_cons, List.not_mem_nil, or_false] at h
          rcases h with rfl | rfl | rfl <;> exact hhigh (by omega) (by omega)
        · simp only [List.mem_cons, List.not_mem_nil, or_false] at h
          rcases h with rfl | rfl | rfl | rfl <;> exact hhigh (by omega) (by omega)
    exact absurd hb (Nat.not_lt.mpr hle)

theorem decodeLine?_eq_some {line : List UInt8} {text : String} :
    decodeLine? line = some text ↔ line = bytes text := by
  rw [decodeLine?, String.fromUTF8?]
  constructor
  · intro h
    split at h
    · obtain rfl := Option.some.inj h
      simp [bytes, String.fromUTF8]
    · cases h
  · rintro rfl
    have hbytes : (bytes text).toByteArray = text.toByteArray := by
      rw [bytes_eq, ← List.utf8Encode, String.utf8Encode_toList]
    simp only [hbytes]
    rw [dif_pos text.isValidUTF8]
    rfl

theorem decodeLine?_eq_none {line : List UInt8} (h : ¬ Readable line) : decodeLine? line = none :=
  Option.eq_none_iff_forall_ne_some.mpr fun text htext => h ⟨text, decodeLine?_eq_some.mp htext⟩

theorem eq_concat_of_bytes {line : List UInt8} {b : UInt8} {text : String}
    (h : bytes text = line ++ [b]) (hb : b.toNat < 128) :
    ∃ front c, text.toList = front ++ [c] ∧ c.toNat = b.toNat ∧
      line = bytes (String.ofList front) := by
  rcases List.eq_nil_or_concat text.toList with hnil | ⟨front, c, hfront⟩
  · simp [bytes_eq, hnil] at h
  rcases List.eq_nil_or_concat (String.utf8EncodeChar c) with hc | ⟨more, last, hc⟩
  · exact absurd hc String.utf8EncodeChar_ne_nil
  rw [List.concat_eq_append] at hfront hc
  rw [bytes_eq, hfront, List.flatMap_append, List.flatMap_singleton, hc, ← List.append_assoc] at h
  obtain ⟨hline, hlast⟩ := List.append_inj' h rfl
  obtain rfl : last = b := List.singleton_inj.mp hlast
  obtain ⟨hsingle, hcode⟩ := eq_of_mem_utf8EncodeChar (hc ▸ List.mem_concat_self) hb
  obtain rfl : more = [] := List.append_left_eq_self.mp (hc.symm.trans hsingle)
  refine ⟨front, c, hfront, hcode, ?_⟩
  rw [bytes_eq, String.toList_ofList, ← hline, List.append_nil]

theorem Readable.of_cr {line : List UInt8} (h : Readable (line ++ [13])) : Readable line := by
  obtain ⟨text, htext⟩ := h
  obtain ⟨front, c, -, -, hline⟩ := eq_concat_of_bytes htext.symm (by decide)
  exact ⟨_, hline⟩

/-- The lines of an input stay readable with a line feed behind the last. -/
theorem readable_append_lf {front : List UInt8} (h : ∀ line ∈ lines front, Readable line) :
    ∀ line ∈ lines (front ++ [10]), Readable line := by
  intro line hline
  rcases mem_lines_append_lf front line hline with rfl | hmem | hmem
  · exact ⟨"", rfl⟩
  · exact h line hmem
  · exact (h _ hmem).of_cr

theorem lines_bytes {text : String} (hlf : '\n' ∉ text.toList)
    (hcr : text.toList.getLast? ≠ some '\r') : lines (bytes text ++ [10]) = [bytes text] := by
  refine lines_line_lf (fun hmem => ?_) (fun hlast => ?_) []
  · rw [bytes_eq, List.mem_flatMap] at hmem
    obtain ⟨c, hc, hmem⟩ := hmem
    obtain rfl : c = '\n' := Char.toNat_inj.mp (eq_of_mem_utf8EncodeChar hmem (by decide)).2
    exact hlf hc
  · obtain ⟨line, hline⟩ := List.getLast?_eq_some_iff.mp hlast
    obtain ⟨front, c, hfront, hcode, -⟩ := eq_concat_of_bytes hline (by decide)
    obtain rfl : c = '\r' := Char.toNat_inj.mp hcode
    exact hcr (by rw [hfront, List.getLast?_concat])

end Utf8

end Reckoner.CommandLine

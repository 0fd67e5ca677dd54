import Reckoner.CommandLine.Program
import Reckoner.Proofs.CommandLine.Lines
import Reckoner.Proofs.CommandLine.Messages

/-!
# Batches, line by line

A batch answers each of its lines by itself and in order, with one line on one of the two streams,
up to the first line that cannot be read. Main statement: what a run on standard input writes and
how it ends, for all inputs; in particular, inputs that a line feed keeps apart are answered apart.
-/
namespace Reckoner.CommandLine

open Text (bytes)

def Transcript.after (t : Transcript) (stdout stderr : String) : Transcript :=
  ⟨t.code, stdout ++ t.stdout, stderr ++ t.stderr⟩

/-- `Adds separator text stdout stderr`: a line that holds the text adds this to the two streams. -/
inductive Adds (separator : Separator) (text : String) : String → String → Prop where
  | blank (hblank : ∀ c ∈ text.toList, Text.isWhiteSpace c = true) : Adds separator text "" ""
  | value {v : Float} (hblank : ∃ c ∈ text.toList, Text.isWhiteSpace c = false)
      (h : evaluate text separator Builtin.table = .ok v)
      (hline : Unbroken (render v separator.char)) :
      Adds separator text (render v separator.char ++ "\n") ""
  | error {e : EvalError} (hblank : ∃ c ∈ text.toList, Text.isWhiteSpace c = false)
      (h : evaluate text separator Builtin.table = .error e) (hline : Unbroken e.message) :
      Adds separator text "" (e.message ++ "\n")

/-- What readable lines add to the two streams, in their order. -/
inductive AddsAll (separator : Separator) : List (List UInt8) → String → String → Prop where
  | nil : AddsAll separator [] "" ""
  | cons {line : List UInt8} {more : List (List UInt8)} {text out err outs errs : String}
      (hread : line = bytes text) (h : Adds separator text out err)
      (hmore : AddsAll separator more outs errs) :
      AddsAll separator (line :: more) (out ++ outs) (err ++ errs)

section Lines

variable {separator : Separator} {text out err outs errs : String} {line bad : List UInt8}
  {parts more : List (List UInt8)}

theorem isEmptyLine_iff : isEmptyLine text = true ↔
    ∀ c ∈ text.toList, Text.isWhiteSpace c = true := by
  rw [isEmptyLine, List.all_eq_true]

theorem isEmptyLine_eq_false_iff : isEmptyLine text = false ↔
    ∃ c ∈ text.toList, Text.isWhiteSpace c = false := by
  simp [isEmptyLine]

theorem exists_adds (separator : Separator) (text : String) :
    ∃ out err, Adds separator text out err := by
  cases hempty : isEmptyLine text with
  | true => exact ⟨_, _, .blank (isEmptyLine_iff.mp hempty)⟩
  | false =>
    have hblank := isEmptyLine_eq_false_iff.mp hempty
    cases h : evaluate text separator Builtin.table with
    | ok v => exact ⟨_, _, .value hblank h (unbroken_render separator v)⟩
    | error e => exact ⟨_, _, .error hblank h (unbroken_message h)⟩

theorem answerLines_cons (h : Adds separator text out err) (more : List (List UInt8)) :
    answerLines (.ofSeparator separator) (bytes text :: more) =
      (answerLines (.ofSeparator separator) more).after out err := by
  rw [answerLines, decodeLine?_eq_some.mpr rfl]
  cases h with
  | blank hblank =>
    simp only [isEmptyLine_iff.mpr hblank, if_true]
    rfl
  | value hblank h hline =>
    simp only [isEmptyLine_eq_false_iff.mpr hblank, Bool.false_eq_true, if_false, answer,
      Calculator.evaluate, Calculator.ofSeparator, h]
    rfl
  | error hblank h hline =>
    simp only [isEmptyLine_eq_false_iff.mpr hblank, Bool.false_eq_true, if_false, answer,
      Calculator.evaluate, Calculator.ofSeparator, h]
    rfl

theorem Adds.unique {out' err' : String} (h : Adds separator text out err)
    (h' : Adds separator text out' err') : out' = out ∧ err' = err := by
  have hsame := (answerLines_cons h' []).symm.trans (answerLines_cons h [])
  simpa [Transcript.after, answerLines, Transcript.silent] using hsame

theorem answerLines_append (h : AddsAll separator parts outs errs) (more : List (List UInt8)) :
    answerLines (.ofSeparator separator) (parts ++ more) =
      (answerLines (.ofSeparator separator) more).after outs errs := by
  induction h with
  | nil => simp [Transcript.after]
  | cons hread h hmore ih =>
    subst hread
    rw [List.cons_append, answerLines_cons h, ih]
    simp only [Transcript.after, String.append_assoc]

theorem answerLines_bad (c : Calculator) (hbad : ¬ Readable bad) (more : List (List UInt8)) :
    answerLines c (bad :: more) = ⟨1, "", "Failed to read from standard input.\n"⟩ := by
  rw [answerLines, decodeLine?_eq_none hbad]
  rfl

/-- Lines are answered to the last, or to the first that cannot be read. -/
theorem addsAll_or_bad (separator : Separator) (parts : List (List UInt8)) :
    (∃ outs errs, AddsAll separator parts outs errs) ∨
      ∃ front bad behind outs errs, parts = front ++ bad :: behind ∧
        AddsAll separator front outs errs ∧ ¬ Readable bad := by
  induction parts with
  | nil => exact .inl ⟨_, _, .nil⟩
  | cons line more ih =>
    by_cases hread : Readable line
    · obtain ⟨text, hread⟩ := hread
      obtain ⟨out, err, h⟩ := exists_adds separator text
      rcases ih with ⟨outs, errs, hmore⟩ | ⟨front, bad, behind, outs, errs, rfl, hfront, hbad⟩
      · exact .inl ⟨_, _, .cons hread h hmore⟩
      · exact .inr ⟨_, bad, behind, _, _, rfl, .cons hread h hfront, hbad⟩
    · exact .inr ⟨[], line, more, _, _, rfl, .nil, hread⟩

theorem exists_addsAll (separator : Separator) (h : ∀ line ∈ parts, Readable line) :
    ∃ outs errs, AddsAll separator parts outs errs := by
  rcases addsAll_or_bad separator parts with hall | ⟨front, bad, behind, -, -, rfl, -, hbad⟩
  · exact hall
  · exact absurd (h bad (by simp)) hbad

end Lines

theorem run_batch (separator : Separator) (input : List UInt8) :
    (Invocation.compute separator.char none).run input =
      answerLines (.ofSeparator separator) (lines input) := by
  rw [Invocation.run, Separator.ofChar_char]
  rfl

theorem run_expression {separator : Separator} {text out err : String}
    (hblank : ∃ c ∈ text.toList, Text.isWhiteSpace c = false) (h : Adds separator text out err)
    (input : List UInt8) :
    ((Invocation.compute separator.char (some text)).run input).stdout = out ∧
      ((Invocation.compute separator.char (some text)).run input).stderr = err := by
  simp only [Invocation.run, Separator.ofChar_char, compute, Calculator.evaluate,
    Calculator.ofSeparator]
  cases h with
  | blank hempty =>
    obtain ⟨c, hc, hfalse⟩ := hblank
    rw [hempty c hc] at hfalse
    cases hfalse
  | value hblank h hline =>
    rw [h]
    exact ⟨String.append_empty, rfl⟩
  | error hblank h hline =>
    rw [h]
    exact ⟨rfl, String.append_empty⟩

/-- Every input is lines. Each that is UTF-8 adds the value or the error of its text to one stream,
as a line of its own, or nothing if it is white space; the first that is not ends the run. So the
code tells only whether all lines could be read, a line feed keeps what stands in front of it apart
from what stands behind it, and a line comes to what it comes to as an argument. -/
theorem run_line_by_line (separator : Separator) :
    (∀ text, ∃ out err, Adds separator text out err ∧
      ∀ out' err', Adds separator text out' err' → out' = out ∧ err' = err) ∧
    (∀ input, ∃ parts, Cut input parts ∧ (∀ other, Cut input other → other = parts) ∧
      ((∃ outs errs, AddsAll separator parts outs errs ∧
          (Invocation.compute separator.char none).run input = ⟨0, outs, errs⟩) ∨
        ∃ front bad behind outs errs, parts = front ++ bad :: behind ∧
          AddsAll separator front outs errs ∧ ¬ Readable bad ∧
          (Invocation.compute separator.char none).run input =
            ⟨1, outs, errs ++ "Failed to read from standard input.\n"⟩)) ∧
    (∀ a b, (∀ parts, Cut a parts → ∀ line ∈ parts, Readable line) →
      (Invocation.compute separator.char none).run (a ++ 10 :: b) =
        ⟨((Invocation.compute separator.char none).run b).code,
          ((Invocation.compute separator.char none).run (a ++ [10])).stdout ++
            ((Invocation.compute separator.char none).run b).stdout,
          ((Invocation.compute separator.char none).run (a ++ [10])).stderr ++
            ((Invocation.compute separator.char none).run b).stderr⟩) ∧
    ∀ text : String, '\n' ∉ text.toList → text.toList.getLast? ≠ some '\r' →
      (∃ c ∈ text.toList, Text.isWhiteSpace c = false) → ∀ input,
      ((Invocation.compute separator.char none).run (bytes text ++ [10])).stdout =
          ((Invocation.compute separator.char (some text)).run input).stdout ∧
        ((Invocation.compute separator.char none).run (bytes text ++ [10])).stderr =
          ((Invocation.compute separator.char (some text)).run input).stderr := by
  refine ⟨fun text => ?_, fun input => ?_, fun a b hreadable => ?_,
    fun text hlf hcr hblank input => ?_⟩
  · obtain ⟨out, err, h⟩ := exists_adds separator text
    exact ⟨out, err, h, fun out' err' => h.unique⟩
  · refine ⟨lines input, cut_iff.mpr rfl, fun other => cut_iff.mp, ?_⟩
    rw [run_batch]
    rcases addsAll_or_bad separator (lines input) with
      ⟨outs, errs, h⟩ | ⟨front, bad, behind, outs, errs, hparts, hfront, hbad⟩
    · refine .inl ⟨outs, errs, h, ?_⟩
      have hall := answerLines_append h []
      rw [List.append_nil] at hall
      simp [hall, answerLines, Transcript.after, Transcript.silent]
    · refine .inr ⟨front, bad, behind, outs, errs, hparts, hfront, hbad, ?_⟩
      rw [hparts, answerLines_append hfront, answerLines_bad _ hbad]
      simp [Transcript.after]
  · obtain ⟨outs, errs, h⟩ :=
      exists_addsAll separator (readable_append_lf (hreadable _ (cut_iff.mpr rfl)))
    have hfront := answerLines_append h []
    rw [List.append_nil] at hfront
    rw [run_batch, run_batch, run_batch, lines_append_lf, answerLines_append h, hfront]
    simp [answerLines, Transcript.after, Transcript.silent]
  · obtain ⟨out, err, h⟩ := exists_adds separator text
    obtain ⟨hout, herr⟩ := run_expression hblank h input
    rw [hout, herr, run_batch, lines_bytes hlf hcr, answerLines_cons h]
    simp [answerLines, Transcript.after, Transcript.silent]

example : (Invocation.compute '.' none).run (bytes "1+1\r\n \n1/0\n2" ++ [10, 255, 10, 49]) =
    ⟨1, "2\n2\n", "Error at 1: Division by zero.\nFailed to read from standard input.\n"⟩ := by
  decide +kernel

end Reckoner.CommandLine

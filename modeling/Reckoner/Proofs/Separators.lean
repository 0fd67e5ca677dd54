import Mathlib.Logic.Equiv.Basic
import Reckoner.Evaluate
import Reckoner.Proofs.Grammar.Relocation
import Reckoner.Proofs.Source.Exchange

/-!
# Separators are interchangeable

Which separator is in use does not matter. Main statement: when two separators trade places in a
source, the source evaluates with the one as it did with the other, up to the place and the text
of an error.
-/
namespace Reckoner

/-- A cause that lies in no lexeme says nothing that could change. -/
theorem Cause.change_of_inLexeme {cause : Cause} (h : cause.inLexeme = false)
    (change : Char → Char) : cause.change change = cause := by
  cases cause <;> first | rfl | cases h

theorem Cause.change_id (cause : Cause) : cause.change id = cause := by
  cases cause <;> simp [Cause.change]

inductive SameOutcome (change : Char → Char) (text : List Char) :
    Except EvalError Float → Except EvalError Float → Prop where
  | value {v : Float} : SameOutcome change text (.ok v) (.ok v)
  | error {e f : EvalError} (h : SameError change text e f) :
      SameOutcome change text (.error e) (.error f)

section Reading

variable {change : Char → Char} {text : List Char}

theorem SameOutcome.of_follows {first second : Except EvalError Float}
    (h : Follows (fun _ => False) (SameError change text) (fun v w => w = v) first second) :
    SameOutcome change text first second := by
  cases first with
  | ok v =>
    obtain ⟨w, rfl, rfl⟩ := h
    exact .value
  | error e =>
    obtain hpasses | ⟨f, rfl, he⟩ := h
    · exact hpasses.elim
    · exact .error he

theorem Input.same_of_items {p q : Nat} {items items' : List (Except EvalError Located)}
    (hend : SamePlace change text p q) (h : List.Forall₂ (SameItem change text) items items') :
    List.Forall₂ (SameToken change text) (ofItems p items).tokens (ofItems q items').tokens ∧
      Ending.Alike (SameError change text) (ofItems p items).ending (ofItems q items').ending := by
  induction h with
  | nil => exact ⟨.nil, .finish ⟨rfl, hend⟩⟩
  | cons hitem _ ih =>
    cases hitem with
    | token ht => exact ⟨.cons ht ih.1, ih.2⟩
    | error he => exact ⟨.nil, .fault he⟩

/-- Evaluation looks at no place, so the same tokens are read alike. -/
def sameReading (functions : FunctionTable) {ending ending' : Ending}
    (halike : Ending.Alike (SameError change text) ending ending') :
    Meaning.Simulation functions.meaning functions.meaning ending ending' where
  toTracking := functions.tracking
    { token := SameToken change text
      tokens := List.Forall₂ (SameToken change text)
      error := SameError change text
      passes := fun _ => False
      tokens_cons := fun h => by
        cases h with
        | cons ht hrest => exact ⟨_, _, rfl, ht, hrest⟩
      tokens_end := fun h => by
        cases h with
        | nil => exact .alike halike
      token_eq := fun h => h.token
      error_at := fun h _ hcause => ⟨(Cause.change_of_inLexeme hcause change).symm, h.place⟩ }
  tokens_nil h := by
    cases h with
    | nil => exact .inr ⟨rfl, halike⟩

/-- With the separator changed along, a changed source evaluates alike. -/
theorem evaluate_exchanges {a b : Separator} {source : String}
    (h : Exchanges change a b source.toList) (functions : FunctionTable) :
    SameOutcome change source.toList (evaluate source a functions)
      (evaluate (String.ofList (source.toList.map change)) b functions) := by
  have hend : SamePlace change source.toList (byteLength source.toList)
      (byteLength (source.toList.map change)) :=
    ⟨source.toList, [], (List.append_nil _).symm, rfl, rfl⟩
  obtain ⟨htokens, halike⟩ := Input.same_of_items hend h.sameItems
  rw [evaluate, evaluate, Input.ofSource, Input.ofSource, String.toList_ofList]
  exact .of_follows ((sameReading functions halike).follows_read htokens)

theorem SameOutcome.eq_of_id {first second : Except EvalError Float}
    (h : SameOutcome id text first second) : second = first := by
  cases h with
  | value => rfl
  | @error e f h =>
    obtain ⟨front, back, -, he, hf⟩ := h.place
    have hcause := h.cause
    rw [Cause.change_id] at hcause
    rw [List.map_id, ← he] at hf
    cases e
    cases f
    simp_all

end Reading

theorem exchanges_swap (a b : Separator) (text : List Char) :
    Exchanges (Equiv.swap a.char b.char) a b text where
  reserved c hc := by
    refine Equiv.swap_apply_of_ne_of_ne ?_ ?_ <;> rintro rfl
    · exact Bool.false_ne_true (a.free.symm.trans hc)
    · exact Bool.false_ne_true (b.free.symm.trans hc)
  free c hc := by
    rw [Equiv.swap_apply_def]
    split
    · exact b.free
    · split
      · exact a.free
      · exact hc
  separator c _ := by
    rw [Equiv.swap_apply_eq_iff, Equiv.swap_apply_right]

/-- Two separators that trade places throughout a source, and in its evaluation, change nothing but
the places behind them and the text of a faulty lexeme. Where neither stands, nothing changes. -/
theorem evaluate_swap (source : String) (a b : Separator) (functions : FunctionTable) :
    SameOutcome (Equiv.swap a.char b.char) source.toList (evaluate source a functions)
        (evaluate (String.ofList (source.toList.map (Equiv.swap a.char b.char))) b functions) ∧
      ((∀ c ∈ source.toList, c ≠ a.char ∧ c ≠ b.char) →
        evaluate source b functions = evaluate source a functions) := by
  refine ⟨evaluate_exchanges (exchanges_swap a b source.toList) functions, fun hneither => ?_⟩
  have hid : Exchanges id a b source.toList :=
    ⟨fun _ _ => rfl, fun _ => id, fun c hc =>
      iff_of_false (hneither c hc).2 (hneither c hc).1⟩
  have hsame := (evaluate_exchanges hid functions).eq_of_id
  rwa [List.map_id, String.ofList_toList] at hsame

/-- A separator of two bytes moves what stands behind it. -/
example : evaluate "1·5 + ?" ⟨'·', by decide⟩ .empty = .error ⟨7, .unknownCharacter '?'⟩ ∧
    evaluate "1.5 + ?" .point .empty = .error ⟨6, .unknownCharacter '?'⟩ := by
  decide +kernel

end Reckoner

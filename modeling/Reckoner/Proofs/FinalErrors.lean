import Reckoner.Proofs.Grammar.Blame
import Reckoner.Proofs.Grammar.Simulation
import Reckoner.Proofs.Source.Append
import Reckoner.Proofs.SyntaxErrors

/-!
# Errors are final

Reading looks at a lexeme only when it needs it. So what was read without running into the end of
the tokens does not depend on what stands there. Main statement: an error that blames a lexeme stays
the same, in the same place, whatever text follows the source behind a blank.
-/
namespace Reckoner

def Cause.isFinal : Cause → Bool
  | .notANumber _ | .missingBracket | .unknownFunction _ | .malformedNumber _
  | .unknownCharacter _ | .trailingInput _ => true
  | .endOfExpression | .divisionByZero | .nestingTooDeep _ => false

/-- No lexeme behind the source was wanted when the error was met. Behind `^` one is wanted before
the level opens, so there the source must not end. -/
inductive Final (separator : Separator) (source : String) (e : EvalError) : Prop where
  | cause (h : e.cause.isFinal = true) : Final separator source e
  | opening {limit : Nat} {l : Lexeme} (h : e.cause = .nestingTooDeep limit)
      (hl : l ∈ lexemes separator.char source) (hstart : l.start = e.position)
      (hopen : l.content = .ok (.symbol .lparen) ∨ ∃ name, l.content = .ok (.identifier name)) :
      Final separator source e
  | exponent {limit : Nat} {front behind : List Lexeme} {l : Lexeme}
      (h : e.cause = .nestingTooDeep limit)
      (hlexemes : lexemes separator.char source = front ++ l :: behind)
      (hstart : l.start = e.position) (hcaret : l.content = .ok (.symbol .caret))
      (hbehind : behind ≠ []) : Final separator source e

namespace Meaning

variable {V : Type} (m : Meaning V) (mark : EvalError)

/-- Reading tokens that end in a mark is reading them with anything behind, up to the mark. -/
def upToMark (more : List Located) (ending : Ending) : Simulation m m (.fault mark) ending where
  token t t' := t' = t
  tokens rest others := others = rest ++ more
  value v w := w = v
  error e f := f = e
  passes e := e = mark
  tokens_cons {t rest others} h := ⟨t, rest ++ more, h, rfl, rfl⟩
  tokens_nil _ := .inl ⟨mark, rfl, rfl⟩
  token_eq h := congrArg Located.token h
  error_at h _ _ := by rw [h]
  number x := rfl
  sign sign h := congrArg _ h
  group h := congrArg _ h
  call {t t' name} h _ := by
    obtain rfl := h
    cases hcall : m.call? t'.position name with
    | none => exact .inl ⟨rfl, .inr rfl⟩
    | some f => exact .inr ⟨f, f, rfl, rfl, fun v w hvw => congrArg f hvw⟩
  combine {t t' x y x' y'} op h hx hy := by
    obtain rfl := h
    obtain rfl := hx
    obtain rfl := hy
    cases m.combine op t'.position x' y' with
    | ok v => exact ⟨v, rfl, rfl⟩
    | error e => exact .inr ⟨e, rfl, rfl⟩

/-- What is read without reaching the mark does not depend on what stands in its place. -/
theorem read_append {tokens : List Located} (h : m.read ⟨tokens, .fault mark⟩ ≠ .error mark)
    (more : List Located) (ending : Ending) :
    m.read ⟨tokens ++ more, ending⟩ = m.read ⟨tokens, .fault mark⟩ := by
  have hfollows : Follows (· = mark) (fun e f => f = e) (fun v w => w = v)
      (m.read ⟨tokens, .fault mark⟩) (m.read ⟨tokens ++ more, ending⟩) :=
    (m.upToMark mark more ending).follows_read rfl
  cases hread : m.read ⟨tokens, .fault mark⟩ with
  | ok v =>
    rw [hread] at hfollows
    obtain ⟨w, hw, rfl⟩ := hfollows
    exact hw
  | error e =>
    rw [hread] at hfollows
    rcases hfollows with rfl | ⟨f, hf, rfl⟩
    · exact absurd hread h
    · exact hf

end Meaning

section Rejections

variable {known : String → Bool} {ending : Ending} {pre rest : List Located} {t : Located}
  {e : EvalError}

/-- A rejection in front of a token does not depend on the ending. Only where an exponent is too
deep, what stands behind its operator has to be there. -/
theorem Input.Rejects.change_ending (h : Rejects known ending pre (t :: rest) e) {other : Ending}
    (hlevel : e.cause = .nestingTooDeep nestingLimit → t.token = .symbol .caret →
      other.advance rest = .ok rest) : Rejects known other pre (t :: rest) e := by
  cases h with
  | behind h hstops => exact .behind h hstops
  | inside h =>
    refine .inside (h.elsewhere (fun name hcause => ?_) (fun hcause => ⟨rfl, ?_⟩)
      (fun _ => id) rfl nofun)
    · have hmisplaced := h.misplaced t rfl []
      rw [hcause] at hmisplaced
      cases hmisplaced with
      | unknown _ hname => exact hname
    · rintro t' behind heq ht
      obtain ⟨rfl, rfl⟩ := List.cons.inj heq
      exact hlevel hcause ht

end Rejections

section Sources

variable {source : String} {separator : Separator} {functions : FunctionTable} {e : EvalError}

theorem lexeme_at_token {pre rest : List Located} {t : Located} {front behind : List Lexeme}
    {l : Lexeme}
    (hitems : (lexemes separator.char source).map Lexeme.item = (pre ++ t :: rest).map .ok)
    (hlexemes : lexemes separator.char source = front ++ l :: behind)
    (hstart : l.start = t.position) :
    l.content = .ok t.token ∧ behind.map Lexeme.item = rest.map .ok := by
  rw [List.map_append, List.map_cons] at hitems
  obtain ⟨front', tail, hlexemes', hfront, htail⟩ := List.map_eq_append_iff.mp hitems
  obtain ⟨l', behind', rfl, hl', hbehind⟩ := List.map_eq_cons_iff.mp htail
  obtain ⟨hcontent, hstart'⟩ := Lexeme.content_of_item hl'
  have hindex : (lexemes separator.char source)[front.length]? = some l := by simp [hlexemes]
  have hindex' : (lexemes separator.char source)[front'.length]? = some l' := by simp [hlexemes']
  have hlength := index_of_start hindex hindex' (hstart.trans hstart'.symm)
  obtain ⟨-, htails⟩ := List.append_inj (hlexemes.symm.trans hlexemes') hlength
  obtain ⟨rfl, rfl⟩ := List.cons.inj htails
  exact ⟨hcontent, hbehind⟩

/-- Where an exponent is too deep and the error is final, something stands behind its operator. -/
theorem Final.rest_ne_nil (hfinal : Final separator source e) {limit : Nat}
    (hcause : e.cause = .nestingTooDeep limit) {pre rest : List Located} {t : Located}
    (hitems : (lexemes separator.char source).map Lexeme.item = (pre ++ t :: rest).map .ok)
    (hposition : e.position = t.position) (ht : t.token = .symbol .caret) : rest ≠ [] := by
  cases hfinal with
  | cause h =>
    rw [hcause] at h
    cases h
  | opening h hl hstart hopen =>
    obtain ⟨front, behind, hlexemes⟩ := List.append_of_mem hl
    obtain ⟨hcontent, -⟩ := lexeme_at_token hitems hlexemes (hstart.trans hposition)
    rw [ht] at hcontent
    rcases hopen with hl | ⟨name, hl⟩ <;> rw [hcontent] at hl <;> cases hl
  | exponent h hlexemes hstart hcaret hbehind =>
    rintro rfl
    obtain ⟨-, hitems⟩ := lexeme_at_token hitems hlexemes (hstart.trans hposition)
    exact hbehind (List.map_eq_nil_iff.mp hitems)

theorem Final.cause_ne (hfinal : Final separator source e) {cause : Cause}
    (hcause : cause.isFinal = false) (hlevel : ∀ limit, cause ≠ .nestingTooDeep limit) :
    e.cause ≠ cause := by
  rintro rfl
  cases hfinal with
  | cause h => exact Bool.false_ne_true (hcause.symm.trans h)
  | opening h => exact hlevel _ h
  | exponent h => exact hlevel _ h

end Sources

theorem read_ne_mark {pre rest : List Located} {t : Located} {functions : FunctionTable}
    {mark e : EvalError} (hmark : mark.cause = .endOfExpression)
    (h : Input.Rejects functions.contains (.fault mark) pre (t :: rest) e) :
    functions.meaning.read ⟨pre ++ t :: rest, .fault mark⟩ ≠ .error mark := by
  have hends : functions.meaning.EndsIn pre e
      (functions.meaning.read ⟨pre ++ t :: rest, .fault mark⟩) :=
    Input.read_of_rejects functions.meaning_knows rfl h
  intro hread
  rcases hends with he | ⟨d, hd, he⟩
  · obtain rfl := Except.error.inj (hread.symm.trans he)
    exact h.misplaced.ne_endOfExpression hmark
  · obtain rfl := Except.error.inj (hread.symm.trans he)
    obtain ⟨t', -, -, rfl⟩ := functions.refuses_meaning hd
    cases hmark

/-- A final error stays, with the same text and in the same place, whatever follows behind a
blank. -/
theorem evaluate_append (source blanks text : String) (separator : Separator)
    (functions : FunctionTable) (e : EvalError) (hne : blanks ≠ "")
    (hblanks : ∀ c ∈ blanks.toList, isBlank c = true)
    (he : evaluate source separator functions = .error e) (hfinal : Final separator source e) :
    evaluate (source ++ blanks ++ text) separator functions = .error e := by
  rcases Input.ofSource_append separator hne hblanks source text with
    ⟨-, hsame⟩ | ⟨hitems, more, ending, hinput⟩
  · rw [evaluate, hsame]
    exact he
  · obtain ⟨pre, rest, htokens, h⟩ :=
      rejects_of_evaluate he (hfinal.cause_ne rfl fun _ => Cause.noConfusion)
    have hsource := Input.ofSource_of_items hitems
    rw [evaluate, hsource, ← htokens] at he
    rw [← htokens] at hitems hinput
    cases rest with
    | nil =>
      have hend := h.located.2 rfl
      rw [hsource] at hend
      exact absurd (congrArg EvalError.cause hend) (hfinal.cause_ne rfl fun _ => Cause.noConfusion)
    | cons t rest =>
      -- A mark that misses a token differs from every error that is met in front of one.
      let mark : EvalError := ⟨0, .endOfExpression⟩
      have hmarked : Input.Rejects functions.contains (.fault mark) pre (t :: rest) e := by
        refine h.change_ending fun hcause ht => ?_
        obtain ⟨t', behind, rfl⟩ :=
          List.exists_cons_of_ne_nil (hfinal.rest_ne_nil hcause hitems h.located.1 ht)
        exact Ending.advance_cons _ t' behind
      have hread := functions.meaning.read_append mark (read_ne_mark rfl hmarked)
      have hsourceRead := hread [] (.finish (byteLength source.toList))
      rw [List.append_nil] at hsourceRead
      rw [evaluate, hinput, hread more ending, ← hsourceRead]
      exact he

/-- What follows a blank is not looked at, though it holds an unknown character and a bracket. -/
theorem evaluate_append_unknown :
    evaluate "2 ^ (3 4" .point .empty = .error ⟨7, .missingBracket⟩ ∧
      evaluate ("2 ^ (3 4" ++ "\t" ++ "?)") .point .empty = .error ⟨7, .missingBracket⟩ :=
  have he : evaluate "2 ^ (3 4" .point .empty = .error ⟨7, .missingBracket⟩ := by decide +kernel
  ⟨he, evaluate_append "2 ^ (3 4" "\t" "?)" .point .empty _ (by decide) (by simp [isBlank]) he
    (.cause rfl)⟩

end Reckoner

import Reckoner.Proofs.Grammar.Viability

/-!
# What syntax errors tell

Reading goes on exactly as long as what was read can still become an expression. So a token is
blamed where no continuation helps any more, and the end of the source where only more tokens
would. Main statement: the correct-prefix property of evaluation.
-/
namespace Reckoner

variable {source : String} {separator : Separator} {functions : FunctionTable} {e : EvalError}

theorem rejects_of_evaluate (he : evaluate source separator functions = .error e)
    (hcause : e.cause ≠ .divisionByZero) :
    ∃ pre rest, pre ++ rest = (Input.ofSource separator.char source).tokens ∧
      Input.Rejects functions.contains (Input.ofSource separator.char source).ending pre rest
        e := by
  rcases Input.accepts_or_rejects functions.contains (.ofSource separator.char source) with
    ⟨tree, h⟩ | ⟨pre, rest, d, htokens, h⟩
  · obtain ⟨t, -, -, rfl⟩ := error_of_accepts h he
    exact absurd rfl hcause
  · rcases evaluate_of_rejects htokens h with hd | ⟨t, -, -, hd⟩
    · obtain rfl : e = d := by simpa [he] using hd
      exact ⟨pre, rest, htokens, h⟩
    · obtain rfl : e = ⟨t.position, .divisionByZero⟩ := by simpa [he] using hd
      exact absurd rfl hcause

/-- The ending is blamed for missing tokens or for the fault that it is, never as a token. -/
theorem ending_blames_no_token :
    (Input.ofSource separator.char source).ending.error.cause.blamesToken = false := by
  rcases Input.cause_of_ending separator.char source with h | ⟨c, h⟩ | ⟨text, h⟩ <;> rw [h] <;> rfl

/-- Behind a blamed token nothing can be mended, and in front of it everything can. -/
theorem blamed_token (he : evaluate source separator functions = .error e)
    (hblames : e.cause.blamesToken = true) :
    ∃ front l back before t, lexemes separator.char source = front ++ l :: back ∧
      front.map Lexeme.content = before.map .ok ∧ l.content = .ok t ∧ l.start = e.position ∧
      Viable before ∧ ¬ Viable (before ++ [t]) := by
  have hcause : e.cause ≠ .divisionByZero := by
    intro hdivision
    simp [hdivision, Cause.blamesToken] at hblames
  obtain ⟨pre, rest, htokens, h⟩ := rejects_of_evaluate he hcause
  cases rest with
  | nil =>
    rw [h.located.2 rfl, ending_blames_no_token] at hblames
    cases hblames
  | cons t rest =>
    obtain ⟨front, l, back, hlexemes, hfront, hl, hstart⟩ := Input.lexemes_of_tokens htokens
    exact ⟨front, l, back, _, t.token, hlexemes, hfront, hl, hstart.trans h.located.1.symm,
      h.viable, h.not_viable hblames⟩

/-- The end of the source is blamed only if all its lexemes are tokens that can go on and do
not. -/
theorem blamed_end (he : evaluate source separator functions = .error e)
    (hcause : e.cause = .endOfExpression) :
    ∃ tokens : List Token, (lexemes separator.char source).map Lexeme.content = tokens.map .ok ∧
      Viable tokens ∧ ¬ Sentence tokens := by
  obtain ⟨pre, rest, htokens, h⟩ := rejects_of_evaluate he (by simp [hcause])
  cases rest with
  | cons t rest =>
    have hblames := h.cause_of_cons
    simp [hcause, Cause.blamesToken] at hblames
  | nil =>
    rw [List.append_nil] at htokens
    rcases Input.ofSource_items separator.char source with ⟨hending, hitems⟩ | ⟨d, -, hending, -⟩
    · rw [← htokens] at hitems
      rw [hending] at h
      exact ⟨_, Lexeme.contents_of_items hitems, h.viable, h.not_sentence⟩
    · obtain rfl : e = d := by rw [h.located.2 rfl, hending, Ending.error]
      rcases Input.cause_of_fault hending with ⟨c, hd⟩ | ⟨text, hd⟩ <;> simp [hcause] at hd

theorem error_of_viable {tokens : List Token}
    (hcontents : (lexemes separator.char source).map Lexeme.content = tokens.map .ok)
    (hviable : Viable tokens) (hsentence : ¬ Sentence tokens) :
    ∃ e, evaluate source separator functions = .error e ∧
      (e.cause = .endOfExpression ∨ (∃ name, e.cause = .unknownFunction name) ∨
        e.cause = .divisionByZero ∨ ∃ limit, e.cause = .nestingTooDeep limit) := by
  obtain ⟨located, rfl, hitems⟩ := Lexeme.items_of_contents hcontents
  have hinput := Input.ofSource_of_items hitems
  rcases Input.accepts_or_rejects functions.contains (.ofSource separator.char source) with
    ⟨tree, h⟩ | ⟨pre, rest, e, htokens, h⟩
  · have hderives := h.admits.derives
    rw [hinput] at hderives
    exact absurd (sentence_map_iff.mpr ⟨tree, hderives⟩) hsentence
  · rcases evaluate_of_rejects htokens h with he | ⟨t, -, -, he⟩
    · refine ⟨e, he, ?_⟩
      rw [hinput] at htokens h
      cases rest with
      | nil => exact .inl (by rw [h.located.2 rfl, Ending.error])
      | cons t rest =>
        rcases h.cause_of_cons with hblames | hname | hlevel
        · refine absurd ?_ (h.not_viable hblames)
          simp only at htokens
          rw [← htokens, List.map_append, List.map_cons, ← List.singleton_append,
            ← List.append_assoc] at hviable
          exact hviable.of_append
        · exact .inr (.inl hname)
        · exact .inr (.inr (.inr ⟨_, hlevel⟩))
    · exact ⟨_, he, .inr (.inr (.inl rfl))⟩

variable (source separator functions)

/-- A blamed token is the first behind which nothing can be mended, and the end of a source is
blamed only if its tokens can go on and do not. Such tokens fail for nothing but that, an unknown
name, a division by zero or the number of levels. -/
theorem evaluate_correct_prefix :
    (∀ e, evaluate source separator functions = .error e → e.cause.blamesToken = true →
      (∃ (k : Nat) (l : Lexeme),
        (lexemes separator.char source)[k]? = some l ∧ l.start = e.position) ∧
      ∀ (k : Nat) (l : Lexeme),
        (lexemes separator.char source)[k]? = some l → l.start = e.position →
        ∃ before t, ((lexemes separator.char source).take k).map Lexeme.content = before.map .ok ∧
          l.content = .ok t ∧ Viable before ∧ ¬ Viable (before ++ [t])) ∧
    (∀ e, evaluate source separator functions = .error e → e.cause = .endOfExpression →
      ∃ tokens : List Token,
        (lexemes separator.char source).map Lexeme.content = tokens.map .ok ∧
          Viable tokens ∧ ¬ Sentence tokens) ∧
    (∀ tokens : List Token, (lexemes separator.char source).map Lexeme.content = tokens.map .ok →
      Viable tokens → ¬ Sentence tokens →
      ∃ e, evaluate source separator functions = .error e ∧
        (e.cause = .endOfExpression ∨ (∃ name, e.cause = .unknownFunction name) ∨
          e.cause = .divisionByZero ∨ ∃ limit, e.cause = .nestingTooDeep limit)) := by
  refine ⟨fun e he hblames => ?_, fun e he => blamed_end he, fun tokens => error_of_viable⟩
  obtain ⟨front, l, back, before, t, hlexemes, hfront, hl, hstart, hviable, hnot⟩ :=
    blamed_token he hblames
  have hindex : (lexemes separator.char source)[front.length]? = some l := by simp [hlexemes]
  refine ⟨⟨_, l, hindex, hstart⟩, fun k other hother hplace => ?_⟩
  obtain rfl : front.length = k := index_of_start hindex hother (hstart.trans hplace.symm)
  obtain rfl : l = other := by simpa [hindex] using hother
  exact ⟨before, t, by simpa [hlexemes] using hfront, hl, hviable, hnot⟩

end Reckoner

import Reckoner.Proofs.Grammar.Blame
import Reckoner.Proofs.Grammar.Division
import Reckoner.Proofs.Source.Runs
import Reckoner.Proofs.SyntaxErrors

/-!
# What an error names

An error stands at the start of a lexeme in front of which every lexeme is a token, and it says of
this lexeme what is true of it. Only a missing operand or bracket at the end of a source names no
lexeme, and then all lexemes are tokens. A lexeme that is no token is never passed over.
-/
namespace Reckoner

def Lexeme.IsToken (l : Lexeme) : Prop := ∃ t, l.content = .ok t

/-- `Names functions before l behind cause`: this is what the cause says of the lexeme `l`, which
stands behind the tokens `before` and in front of the lexemes `behind`. -/
inductive Names (functions : FunctionTable) (before : List Token) (l : Lexeme)
    (behind : List Lexeme) : Cause → Prop where
  | malformedNumber (h : l.content = .error .malformedNumber) :
      Names functions before l behind (.malformedNumber (String.ofList l.text))
  | unknownCharacter {c : Char} (h : l.content = .error (.unknownCharacter c))
      (htext : l.text = [c]) : Names functions before l behind (.unknownCharacter c)
  | misplaced {t : Token} {cause : Cause} (h : l.content = .ok t)
      (htext : ∀ name, t = .identifier name → l.text = name.toList)
      (hcause : Misplaced functions.contains before t cause) :
      Names functions before l behind cause
  /-- The lexemes behind the operator are a signed factor, as long as can be, that is zero. -/
  | divisionByZero {used rest : List Lexeme} {divisor : List Located} {tree : Expr} {v : Float}
      (h : l.content = .ok (.symbol .slash) ∨ l.content = .ok (.symbol .percent))
      (hbehind : behind = used ++ rest) (hused : used.map Lexeme.item = divisor.map .ok)
      (hderives : Derives .signedFactor divisor tree)
      (hrest : ∀ next ∈ rest.head?, next.content ≠ .ok (.symbol .caret))
      (hv : tree.Yields functions v) (hzero : (v == 0) = true) :
      Names functions before l behind .divisionByZero

def NamesLexeme (functions : FunctionTable) (separator : Char) (source : String)
    (e : EvalError) : Prop :=
  ∃ front l behind before, lexemes separator source = front ++ l :: behind ∧
    l.start = e.position ∧ front.map Lexeme.content = before.map .ok ∧
    Names functions before l behind e.cause

theorem Lexeme.isToken_of_contents {ls : List Lexeme} {tokens : List Token}
    (h : ls.map Lexeme.content = tokens.map .ok) : ∀ l ∈ ls, l.IsToken := by
  intro l hl
  have hmem : l.content ∈ tokens.map Except.ok := h ▸ List.mem_map_of_mem hl
  obtain ⟨t, -, ht⟩ := List.mem_map.mp hmem
  exact ⟨t, ht.symm⟩

theorem Lexeme.item_of_not_isToken {l : Lexeme} (h : ¬ l.IsToken) :
    ∃ d, l.item = .error d ∧ d.position = l.start := by
  have hposition := l.itemPosition_item
  cases hl : l.item with
  | ok t => exact absurd ⟨t.token, (content_of_item hl).1⟩ h
  | error d => exact ⟨d, rfl, by rwa [hl] at hposition⟩

theorem Input.ending_of_not_isToken {position : Nat} {front behind : List Lexeme} {l : Lexeme}
    {d : EvalError} (hfront : ∀ k ∈ front, k.IsToken) (hl : l.item = .error d) :
    (ofItems position ((front ++ l :: behind).map Lexeme.item)).ending = .fault d := by
  induction front with
  | nil => rw [List.nil_append, List.map_cons, hl, ofItems]
  | cons k front ih =>
    rw [List.forall_mem_cons] at hfront
    obtain ⟨⟨t, ht⟩, hfront⟩ := hfront
    have hitem : k.item = .ok ⟨t, k.start⟩ := by rw [Lexeme.item, ht]
    rw [List.cons_append, List.map_cons, hitem, ofItems]
    exact ih hfront

theorem names_of_fault {functions : FunctionTable} {before : List Token} {l : Lexeme}
    {behind : List Lexeme} {e : EvalError}
    (htext : ∀ c, l.content = .error (.unknownCharacter c) → l.text = [c])
    (h : l.item = .error e) : l.start = e.position ∧ Names functions before l behind e.cause := by
  rw [Lexeme.item] at h
  split at h
  · cases h
  · next c hc =>
    cases h
    exact ⟨rfl, .unknownCharacter hc (htext c hc)⟩
  · next hc =>
    cases h
    exact ⟨rfl, .malformedNumber hc⟩

section Sources

variable {source : String} {separator : Separator} {functions : FunctionTable} {e : EvalError}

/-- The lexemes that start in front of a place are those cut out in front of it. -/
theorem isToken_of_start_lt {front behind : List Lexeme} {l : Lexeme}
    (hlexemes : lexemes separator.char source = front ++ l :: behind)
    (hfront : ∀ k ∈ front, k.IsToken) :
    ∀ k ∈ lexemes separator.char source, k.start < l.start → k.IsToken := by
  intro k hk hlt
  have hascend := (List.pairwise_append.mp (starts_ascend separator.char source)).1
  rw [hlexemes, List.map_append, List.map_cons, List.pairwise_append, List.pairwise_cons]
    at hascend
  rw [hlexemes] at hk
  rcases List.mem_append.mp hk with hk | hk
  · exact hfront k hk
  · rcases List.mem_cons.mp hk with rfl | hk
    · exact absurd hlt (Nat.lt_irrefl _)
    · exact absurd (hascend.2.1.1 _ (List.mem_map_of_mem hk)) (Nat.lt_asymm hlt)

theorem ending_ne_divisionByZero :
    (Input.ofSource separator.char source).ending.error.cause ≠ .divisionByZero := by
  rcases Input.cause_of_ending separator.char source with h | ⟨c, h⟩ | ⟨text, h⟩ <;> rw [h] <;>
    exact Cause.noConfusion

/-- The end of the source is named only if there is nothing else to name. -/
theorem place_of_endOfExpression (he : evaluate source separator functions = .error e)
    (hcause : e.cause = .endOfExpression) :
    e.position = byteLength source.toList ∧ ∀ l ∈ lexemes separator.char source, l.IsToken := by
  obtain ⟨tokens, hcontents, -, -⟩ := blamed_end he hcause
  refine ⟨?_, Lexeme.isToken_of_contents hcontents⟩
  obtain ⟨pre, rest, htokens, h⟩ := rejects_of_evaluate he (by simp [hcause])
  cases rest with
  | cons t rest => exact absurd hcause h.misplaced.ne_endOfExpression
  | nil =>
    obtain ⟨located, -, hitems⟩ := Lexeme.items_of_contents hcontents
    rw [h.located.2 rfl, Input.ofSource_of_items hitems, Ending.error]

theorem names_of_rejects {pre rest : List Located}
    (htokens : pre ++ rest = (Input.ofSource separator.char source).tokens)
    (h : Input.Rejects functions.contains (Input.ofSource separator.char source).ending pre rest e)
    (hcause : e.cause ≠ .endOfExpression) :
    NamesLexeme functions separator.char source e := by
  have hinput : Input.ofSource separator.char source =
      ⟨pre ++ rest, (Input.ofSource separator.char source).ending⟩ := by rw [htokens]
  obtain ⟨front, back, hlexemes, hfront, hback⟩ := Input.lexemes_eq_append hinput
  have hcontents := Lexeme.contents_of_items hfront
  have hmem {l : Lexeme} (hl : l ∈ back) : l ∈ lexemesFrom separator.char 0 source.toList := by
    rw [← lexemes, hlexemes]
    exact List.mem_append_right front hl
  cases rest with
  | cons t rest =>
    obtain ⟨l, behind, rfl, hl, -⟩ := Input.lexemes_eq_cons hback
    obtain ⟨hcontent, hstart⟩ := Lexeme.content_of_item hl
    refine ⟨front, l, behind, _, hlexemes, hstart.trans h.located.1.symm, hcontents, ?_⟩
    refine .misplaced hcontent (fun name hname => ?_) h.misplaced
    exact (text_of_mem (hmem List.mem_cons_self)).2 name (hname ▸ hcontent)
  | nil =>
    have hend := h.located.2 rfl
    cases hending : (Input.ofSource separator.char source).ending with
    | finish position =>
      rw [hending] at hend
      exact absurd (congrArg EvalError.cause hend) hcause
    | fault d =>
      rw [hending] at hend hback
      obtain rfl : e = d := hend
      obtain ⟨l, behind, rfl, hl⟩ := Input.lexemes_eq_fault hback
      obtain ⟨hstart, hnames⟩ := names_of_fault (text_of_mem (hmem List.mem_cons_self)).1 hl
      exact ⟨front, l, behind, _, hlexemes, hstart, hcontents, hnames⟩

theorem names_of_division (he : evaluate source separator functions = .error e)
    (hcause : e.cause = .divisionByZero) :
    NamesLexeme functions separator.char source e := by
  obtain ⟨pre, t, divisor, rest, tree, v, htokens, ht, hposition, hderives, hstops, hv, hzero⟩ :=
    functions.zero_divisor ending_ne_divisionByZero he hcause
  have hinput : Input.ofSource separator.char source =
      ⟨pre ++ t :: (divisor ++ rest), (Input.ofSource separator.char source).ending⟩ := by
    rw [← htokens]
  obtain ⟨front, back, hlexemes, hfront, hback⟩ := Input.lexemes_eq_append hinput
  obtain ⟨l, behind, rfl, hl, hbehind⟩ := Input.lexemes_eq_cons hback
  obtain ⟨used, others, rfl, hused, hothers⟩ := Input.lexemes_eq_append hbehind
  obtain ⟨hcontent, hstart⟩ := Lexeme.content_of_item hl
  refine ⟨front, l, used ++ others, _, hlexemes, hstart.trans hposition.symm,
    Lexeme.contents_of_items hfront, ?_⟩
  rw [hcause]
  refine .divisionByZero ?_ rfl hused hderives (fun next hnext hcaret => ?_) hv hzero
  · exact ht.imp (fun ht => hcontent.trans (congrArg _ ht)) fun ht =>
      hcontent.trans (congrArg _ ht)
  · -- A caret behind the divisor would be one of the tokens, and carry the divisor on.
    obtain ⟨more, rfl⟩ := List.head?_eq_some_iff.mp hnext
    have hitem : next.item = .ok ⟨.symbol .caret, next.start⟩ := by rw [Lexeme.item, hcaret]
    rw [List.map_cons, hitem, Input.ofItems, Input.mk.injEq] at hothers
    rw [← hothers.1] at hstops
    exact hstops _ rfl .pow rfl (by decide)

theorem names_lexeme (he : evaluate source separator functions = .error e)
    (hcause : e.cause ≠ .endOfExpression) :
    NamesLexeme functions separator.char source e := by
  by_cases hdivision : e.cause = .divisionByZero
  · exact names_of_division he hdivision
  · obtain ⟨pre, rest, htokens, h⟩ := rejects_of_evaluate he hdivision
    exact names_of_rejects htokens h hcause

/-- A fault is an error itself unless there is one in front of it. -/
theorem error_of_fault {d : EvalError}
    (hending : (Input.ofSource separator.char source).ending = .fault d) :
    ∃ e, evaluate source separator functions = .error e ∧ (e.position < d.position ∨ e = d) := by
  have hordered := Input.ofSource_ordered separator.char source
  have hlt {t : Located} (ht : t ∈ (Input.ofSource separator.char source).tokens) :
      t.position < d.position := by
    have := hordered.lt_place (List.append_nil _) ht
    rwa [hending] at this
  rcases Input.accepts_or_rejects functions.contains (.ofSource separator.char source) with
    ⟨tree, h⟩ | ⟨pre, rest, e, htokens, h⟩
  · obtain ⟨position, hfinish⟩ := h.ending
    rw [hending] at hfinish
    cases hfinish
  · rcases evaluate_of_rejects htokens h with he | ⟨t, ht, -, he⟩
    · refine ⟨e, he, ?_⟩
      cases rest with
      | nil =>
        rw [hending] at h
        exact .inr (h.located.2 rfl)
      | cons t rest =>
        left
        rw [h.located.1]
        exact hlt (htokens ▸ List.mem_append_right _ List.mem_cons_self)
    · exact ⟨_, he, .inl (hlt (htokens ▸ List.mem_append_left _ ht))⟩

end Sources

/-- The end of the source is named only if all lexemes are tokens; every other error stands at a
lexeme, in front of which all lexemes are tokens, and names it truly. A source whose first lexeme
that is no token is `l` fails in front of `l` or with the error of `l`. -/
theorem evaluate_error_place (source : String) (separator : Separator)
    (functions : FunctionTable) :
    (∀ e, evaluate source separator functions = .error e → e.cause = .endOfExpression →
      e.position = byteLength source.toList ∧
        ∀ l ∈ lexemes separator.char source, l.IsToken) ∧
    (∀ e, evaluate source separator functions = .error e → e.cause ≠ .endOfExpression →
      ∃ front l behind before, lexemes separator.char source = front ++ l :: behind ∧
        l.start = e.position ∧ front.map Lexeme.content = before.map .ok ∧
        (∀ k ∈ lexemes separator.char source, k.start < e.position → k.IsToken) ∧
        Names functions before l behind e.cause) ∧
    (∀ front l behind, lexemes separator.char source = front ++ l :: behind →
      (∀ k ∈ front, k.IsToken) → ¬ l.IsToken →
      ∃ e, evaluate source separator functions = .error e ∧
        (e.position < l.start ∨ l.item = .error e)) := by
  refine ⟨fun e => place_of_endOfExpression, fun e he hcause => ?_, fun front l behind hlexemes
    hfront hl => ?_⟩
  · obtain ⟨front, l, behind, before, hlexemes, hstart, hcontents, hnames⟩ :=
      names_lexeme he hcause
    refine ⟨front, l, behind, before, hlexemes, hstart, hcontents, ?_, hnames⟩
    rw [← hstart]
    exact isToken_of_start_lt hlexemes (Lexeme.isToken_of_contents hcontents)
  · obtain ⟨d, hd, hposition⟩ := Lexeme.item_of_not_isToken hl
    have hending : (Input.ofSource separator.char source).ending = .fault d := by
      rw [Input.ofSource, hlexemes]
      exact Input.ending_of_not_isToken hfront hd
    obtain ⟨e, he, hplace⟩ : ∃ e, evaluate source separator functions = .error e ∧
        (e.position < d.position ∨ e = d) := error_of_fault hending
    refine ⟨e, he, ?_⟩
    rcases hplace with hlt | rfl
    · exact .inl (hposition ▸ hlt)
    · exact .inr hd

end Reckoner

import Reckoner.Proofs.Grammar.Value

/-!
# Reading a whole input

An input is accepted as one expression with nothing behind it, or it is rejected in front of some
of its tokens. Either shows in what is read, whatever the input is read for: a tree, or a value.
-/
namespace Reckoner

/-- The error where the input should end and a token stands. -/
def Located.behindError (t : Located) : EvalError :=
  if t.token = .symbol .rparen then ⟨t.position, .missingBracket⟩
  else ⟨t.position, .trailingInput t.token.display⟩

namespace Input

/-- The input was read through `pre`, and in front of `rest` it is rejected for the reason `e`. -/
inductive Rejects (known : String → Bool) (ending : Ending) :
    List Located → List Located → EvalError → Prop where
  | inside {pre rest : List Located} {e : EvalError}
      (h : Fails known ending nestingLimit .expression pre rest e) :
      Rejects known ending pre rest e
  | behind {used rest : List Located} {t : Located} {tree : Expr}
      (h : Admits known nestingLimit .expression used tree)
      (hstops : Phrase.Stops .expression (t :: rest)) :
      Rejects known ending used (t :: rest) t.behindError

structure Accepts (known : String → Bool) (input : Input) (tree : Expr) : Prop where
  admits : Admits known nestingLimit .expression input.tokens tree
  ending : ∃ position, input.ending = .finish position

variable {V : Type} {m : Meaning V} {known : String → Bool} {ending : Ending}
  {pre rest : List Located} {e : EvalError}

theorem Rejects.located (h : Rejects known ending pre rest e) :
    e.position = ending.place rest ∧ (rest = [] → e = ending.error) := by
  cases h with
  | inside h => exact h.located
  | behind h hstops =>
    refine ⟨?_, nofun⟩
    rw [Located.behindError]
    split <;> rfl

theorem accepts_or_rejects (known : String → Bool) (input : Input) :
    (∃ tree, input.Accepts known tree) ∨
      ∃ pre rest e, pre ++ rest = input.tokens ∧ Rejects known input.ending pre rest e := by
  rcases reads_or_breaks known input.ending nestingLimit .expression input.tokens with
    ⟨used, rest, tree, htokens, h, hstops, hadvance⟩ | ⟨pre, rest, e, htokens, h⟩
  · cases rest with
    | cons t rest => exact .inr ⟨used, t :: rest, _, htokens, .behind h hstops⟩
    | nil =>
      refine .inl ⟨tree, by rwa [← htokens, List.append_nil], ?_⟩
      cases hending : input.ending with
      | finish position => exact ⟨position, rfl⟩
      | fault e => simp [hending, Ending.advance] at hadvance
  · exact .inr ⟨pre, rest, e, htokens, .inside h⟩

theorem read_of_accepts {input : Input} {tree : Expr} (hm : m.Knows known)
    (h : input.Accepts known tree) : m.read input = m.denote tree := by
  obtain ⟨position, hending⟩ := h.ending
  have hread : m.reader input.ending nestingLimit .expression (input.tokens ++ []) =
      m.denote tree >>= fun v => .ok (v, []) :=
    Meaning.reader_of_admits hm h.admits (Phrase.clear_nil _) (by rw [hending]; rfl)
  rw [List.append_nil] at hread
  exact Meaning.read_of_reader hread

theorem read_of_rejects {input : Input} (hm : m.Knows known) (htokens : pre ++ rest = input.tokens)
    (h : Rejects known input.ending pre rest e) : m.EndsIn pre e (m.read input) := by
  change m.EndsIn pre e (m.reader input.ending nestingLimit .expression input.tokens >>= _)
  rw [← htokens]
  cases h with
  | inside h => exact (Meaning.reader_of_fails hm h).bind (List.Subset.refl _) _
  | @behind rest t tree h hstops =>
    rw [Meaning.reader_of_admits hm h hstops (Ending.advance_cons _ _ _), bind_assoc]
    refine Meaning.endsIn_denote_bind hm h (List.Subset.refl _) fun v => .inl ?_
    simp only [ok_bind, Meaning.expectEnd, Located.behindError]
    split <;> rfl

end Input

section Sources

variable {separator : Separator} {functions : FunctionTable} {source : String} {tree : Expr}
  {pre rest : List Located} {e : EvalError}

theorem parse_of_accepts
    (h : (Input.ofSource separator.char source).Accepts functions.contains tree) :
    Expr.parse source separator functions = .ok tree := by
  rw [Expr.parse, Expr.meaning, Input.read_of_accepts (Expr.building_knows _) h]
  exact Expr.denote_building h.admits.derives h.admits.names

/-- Building refuses no operands, so an input is rejected for its own reason. -/
theorem parse_of_rejects (htokens : pre ++ rest = (Input.ofSource separator.char source).tokens)
    (h : Input.Rejects functions.contains (Input.ofSource separator.char source).ending pre rest
      e) :
    Expr.parse source separator functions = .error e := by
  rcases Input.read_of_rejects (Expr.building_knows _) htokens h with hread | ⟨d, hd, -⟩
  · exact hread
  · obtain ⟨t, -, op, a, b, -, hcombine⟩ := hd
    cases hcombine

theorem items_of_accepts {known : String → Bool}
    (h : (Input.ofSource separator.char source).Accepts known tree) :
    (lexemes separator.char source).map Lexeme.item =
      (Input.ofSource separator.char source).tokens.map .ok := by
  obtain ⟨position, hfinish⟩ := h.ending
  rcases Input.ofSource_items separator.char source with ⟨-, hitems⟩ | ⟨e, -, hfault, -⟩
  · exact hitems
  · rw [hfault] at hfinish
    cases hfinish

theorem evaluate_of_accepts
    (h : (Input.ofSource separator.char source).Accepts functions.contains tree) :
    evaluate source separator functions = tree.evaluate functions := by
  rw [evaluate, Input.read_of_accepts functions.meaning_knows h, functions.denote_meaning]

theorem evaluate_of_items {tokens : List Located}
    (hitems : (lexemes separator.char source).map Lexeme.item = tokens.map .ok)
    (h : Admits functions.contains nestingLimit .expression tokens tree) :
    evaluate source separator functions = tree.evaluate functions := by
  have hinput := Input.ofSource_of_items hitems
  refine evaluate_of_accepts ⟨?_, _, congrArg Input.ending hinput⟩
  rwa [hinput]

/-- Names are known in an accepted input, so only an operator can fail on its operands. -/
theorem error_of_accepts
    (h : (Input.ofSource separator.char source).Accepts functions.contains tree)
    (he : evaluate source separator functions = .error e) :
    ∃ t ∈ (Input.ofSource separator.char source).tokens,
      (t.token = .symbol .slash ∨ t.token = .symbol .percent) ∧
        e = ⟨t.position, .divisionByZero⟩ := by
  rw [evaluate_of_accepts h, ← functions.denote_meaning] at he
  exact functions.refuses_meaning
    (Meaning.refuses_of_denote functions.meaning_knows h.admits.derives h.admits.names he)

/-- An operator in front of the place of rejection may divide by zero before. -/
theorem evaluate_of_rejects
    (htokens : pre ++ rest = (Input.ofSource separator.char source).tokens)
    (h : Input.Rejects functions.contains (Input.ofSource separator.char source).ending pre rest
      e) :
    evaluate source separator functions = .error e ∨
      ∃ t ∈ pre, (t.token = .symbol .slash ∨ t.token = .symbol .percent) ∧
        evaluate source separator functions = .error ⟨t.position, .divisionByZero⟩ := by
  rcases Input.read_of_rejects functions.meaning_knows htokens h with hread | ⟨d, hd, hread⟩
  · exact .inl hread
  · obtain ⟨t, ht, htoken, rfl⟩ := functions.refuses_meaning hd
    exact .inr ⟨t, ht, htoken, hread⟩

theorem accepts_of_evaluate {v : Float} (hv : evaluate source separator functions = .ok v) :
    ∃ tree, (Input.ofSource separator.char source).Accepts functions.contains tree ∧
      tree.evaluate functions = .ok v := by
  rcases Input.accepts_or_rejects functions.contains (.ofSource separator.char source) with
    ⟨tree, h⟩ | ⟨pre, rest, e, htokens, h⟩
  · exact ⟨tree, h, (evaluate_of_accepts h).symm.trans hv⟩
  · rcases evaluate_of_rejects htokens h with he | ⟨t, -, -, he⟩ <;> rw [hv] at he <;> cases he

end Sources

end Reckoner

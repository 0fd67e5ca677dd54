import Reckoner.Proofs.Grammar.Input

/-!
# What a rejection says about a token

A rejection in front of a token tells why the token cannot stand there, and that depends only on
what the token is and on the brackets in front of it.
-/
namespace Reckoner

inductive Balanced : List Token → Prop where
  | nil : Balanced []
  | other {token : Token} {rest : List Token} (hl : token ≠ .symbol .lparen)
      (hr : token ≠ .symbol .rparen) (h : Balanced rest) : Balanced (token :: rest)
  | group {inside rest : List Token} (hinside : Balanced inside) (h : Balanced rest) :
      Balanced (.symbol .lparen :: (inside ++ .symbol .rparen :: rest))

theorem Balanced.append {left right : List Token} (hleft : Balanced left)
    (hright : Balanced right) : Balanced (left ++ right) := by
  induction hleft with
  | nil => exact hright
  | other hl hr _ ih => exact .other hl hr ih
  | @group inside rest hinside _ _ ih =>
    rw [List.cons_append, List.append_assoc, List.cons_append]
    exact .group hinside ih

theorem Balanced.operator {op : Operator} {token : Token} {rest : List Token}
    (hop : Operator.ofToken? token = some op) (h : Balanced rest) : Balanced (token :: rest) := by
  refine .other ?_ ?_ h <;> rintro rfl <;> cases hop

theorem Derives.balanced {phrase : Phrase} {tokens : List Located} {tree : Expr}
    (h : Derives phrase tokens tree) : Balanced (tokens.map Located.token) := by
  induction h with
  | number h =>
    rw [List.map_singleton, h]
    exact .other nofun nofun .nil
  | group hl inside hr ih =>
    rw [List.map_cons, List.map_append, List.map_singleton, hl, hr]
    exact .group ih .nil
  | call h argument ih =>
    rw [List.map_cons, h]
    exact .other nofun nofun ih
  | base h ih => exact ih
  | @raised t left right b e base h exponent ihb ihe =>
    have hop : Operator.ofToken? t.token = some .pow := by rw [h]; rfl
    rw [List.map_append, List.map_cons]
    exact ihb.append (.operator hop ihe)
  | unsigned h ih => exact ih
  | @signed t sign tokens e h power ih =>
    rw [List.map_cons]
    refine .other ?_ ?_ ih <;> intro ht <;> rw [ht] at h <;> cases h
  | operand joins h ih => exact ih
  | joined joins left h right ihl ihr =>
    rw [List.map_append, List.map_cons]
    exact ihl.append (.operator (Option.filter_eq_some_iff.mp h).1 ihr)

/-- A group was opened and not closed, and what follows in it balances. -/
def Open (before : List Token) : Prop :=
  ∃ outer inside, before = outer ++ .symbol .lparen :: inside ∧ Balanced inside

/-- `Misplaced known before token cause`: the token cannot stand behind the tokens `before`, for
this cause. -/
inductive Misplaced (known : String → Bool) (before : List Token) (token : Token) :
    Cause → Prop where
  | operator {op : Operator} (h : Operator.ofToken? token = some op) :
      Misplaced known before token (.notANumber token.display)
  | unknown {name : String} (h : token = .identifier name) (hname : known name = false) :
      Misplaced known before token (.unknownFunction name)
  | closing (h : token = .symbol .rparen) : Misplaced known before token .missingBracket
  | unclosed (h : token.startsAtom = true) (hopen : Open before) :
      Misplaced known before token .missingBracket
  | trailing (h : token.startsAtom = true) (hbefore : Balanced before) :
      Misplaced known before token (.trailingInput token.display)
  | tooDeep (h : token = .symbol .lparen ∨ (∃ name, token = .identifier name) ∨
        token = .symbol .caret) : Misplaced known before token (.nestingTooDeep nestingLimit)

theorem Misplaced.ne_endOfExpression {known : String → Bool} {before : List Token}
    {token : Token} {cause : Cause} (h : Misplaced known before token cause) :
    cause ≠ .endOfExpression := by
  cases h <;> exact Cause.noConfusion

theorem Token.startsAtom_of {token : Token} (hop : Operator.ofToken? token = none)
    (hr : token ≠ .symbol .rparen) : token.startsAtom = true := by
  cases token with
  | number value => rfl
  | identifier name => rfl
  | symbol s =>
    cases s with
    | lparen => rfl
    | rparen => exact absurd rfl hr
    | _ => cases hop

/-- Any operator carries an expression on. -/
theorem Phrase.operator_of_stops {t : Located} {rest : List Located}
    (h : Stops .expression (t :: rest)) : Operator.ofToken? t.token = none := by
  refine Option.eq_none_iff_forall_ne_some.mpr fun op hop => h t rfl op hop ?_
  cases op <;> decide

theorem Misplaced.of_startsAtom {known : String → Bool} {before : List Token} {t : Located}
    (ending : Ending) (rest : List Located) (h : t.token.startsAtom = false) :
    Misplaced known before t.token (ending.operandError (t :: rest)).cause := by
  cases ht : t.token with
  | number value => simp [ht, Token.startsAtom] at h
  | identifier name => simp [ht, Token.startsAtom] at h
  | symbol s =>
    rw [Ending.operandError, ht]
    cases s with
    | lparen => simp [ht, Token.startsAtom] at h
    | rparen => exact .closing rfl
    | _ => exact .operator rfl

/-- A failure in front of a token says why the token cannot stand there. -/
theorem Fails.misplaced {known : String → Bool} {ending : Ending} {n : Nat} {phrase : Phrase}
    {pre rest : List Located} {e : EvalError} (h : Fails known ending n phrase pre rest e) :
    ∀ t ∈ rest.head?, ∀ outer,
      Misplaced known (outer ++ pre.map Located.token) t.token e.cause := by
  induction h with
  | @operand n rest h =>
    intro t ht outer
    obtain ⟨behind, rfl⟩ := List.head?_eq_some_iff.mp ht
    exact .of_startsAtom ending behind (h t rfl)
  | unknown h hname =>
    rintro t ht outer
    cases ht
    exact .unknown h hname
  | tooDeep h =>
    rintro t ht outer
    cases ht
    refine .tooDeep ?_
    rcases h with h | ⟨name, h, -⟩
    · exact .inl h
    · exact .inr (.inl ⟨name, h⟩)
  | number h hending => exact nofun
  | @group n l pre rest e hl h ih =>
    intro t ht outer
    have := ih t ht (outer ++ [l.token])
    rwa [List.append_assoc] at this
  | @unclosed n l tokens rest inside hl h hstops hadvance hr =>
    intro t ht outer
    obtain ⟨behind, rfl⟩ := List.head?_eq_some_iff.mp ht
    refine .unclosed ?_ ⟨outer, tokens.map Located.token, ?_, h.derives.balanced⟩
    · exact Token.startsAtom_of (Phrase.operator_of_stops hstops) (hr t rfl)
    · rw [List.map_cons, hl]
  | closed hl h hr hending => exact nofun
  | @call n t name pre rest e ht hname h ih =>
    intro t' ht' outer
    have := ih t' ht' (outer ++ [t.token])
    rwa [List.append_assoc] at this
  | base h ih => exact ih
  | @tooHigh t tokens rest b hbase ht hadvance =>
    rintro t' ht' outer
    cases ht'
    exact .tooDeep (.inr (.inr ht))
  | caret hbase ht hending => exact nofun
  | @exponent n t tokens pre rest b e hbase ht h ih =>
    intro t' ht' outer
    have := ih t' ht' (outer ++ (tokens ++ [t]).map Located.token)
    rwa [List.append_assoc, ← List.map_append, List.append_assoc] at this
  | unsigned hsign h ih => exact ih
  | @signed n t sign pre rest e ht h ih =>
    intro t' ht' outer
    have := ih t' ht' (outer ++ [t.token])
    rwa [List.append_assoc] at this
  | first joins h ih => exact ih
  | @further n phrase operand tier op t tokens pre rest left e joins hleft ht h ih =>
    intro t' ht' outer
    have := ih t' ht' (outer ++ (tokens ++ [t]).map Located.token)
    rwa [List.append_assoc, ← List.map_append, List.append_assoc] at this

theorem Input.Rejects.misplaced {known : String → Bool} {ending : Ending}
    {pre rest : List Located} {t : Located} {e : EvalError}
    (h : Rejects known ending pre (t :: rest) e) :
    Misplaced known (pre.map Located.token) t.token e.cause := by
  cases h with
  | inside h => exact h.misplaced t rfl []
  | behind h hstops =>
    rw [Located.behindError]
    split
    · next ht => exact .closing ht
    · next ht =>
      exact .trailing (Token.startsAtom_of (Phrase.operator_of_stops hstops) ht)
        h.derives.balanced

end Reckoner

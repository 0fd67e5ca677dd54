import Reckoner.Proofs.Grammar.Value

/-!
# Where a division fails

An operator is applied as soon as its right operand has been read. So when an operator refuses its
operands, the refused operand is what is read right behind it: for a division by zero, a signed
factor whose value is zero.
-/
namespace Reckoner

def Operator.operand : Operator → Phrase
  | .add | .sub => .term
  | .mul | .div | .mod => .signedFactor
  | .pow => .power

theorem Phrase.Joins.operand_eq {phrase operand : Phrase} {tier : Tier} {op : Operator}
    {token : Token} (joins : Joins phrase tier operand)
    (h : Operator.ofTier? tier token = some op) : op.operand = operand := by
  have htier := of_decide_eq_true (Option.filter_eq_some_iff.mp h).2
  cases joins <;> cases op <;> first | rfl | cases htier

namespace Meaning

variable {V : Type} {m : Meaning V} {ending : Ending} {n : Nat} {phrase operand : Phrase}
  {tier : Tier} {known : String → Bool} {rest : List Located} {e : EvalError}

/-- One of the tokens is an operator that refuses the operand read behind it, for the reason
`e`. -/
def RefusesOperand (m : Meaning V) (ending : Ending) (tokens : List Located) (e : EvalError) :
    Prop :=
  ∃ front t back op n a b rest, tokens = front ++ t :: back ∧
    Operator.ofToken? t.token = some op ∧ m.reader ending n op.operand back = .ok (b, rest) ∧
      m.combine op t.position a b = .error e

theorem RefusesOperand.append (h : m.RefusesOperand ending rest e) (front : List Located) :
    m.RefusesOperand ending (front ++ rest) e := by
  obtain ⟨more, t, back, op, n, a, b, others, rfl, h⟩ := h
  exact ⟨front ++ more, t, back, op, n, a, b, others, (List.append_assoc _ _ _).symm, h⟩

/-- A division by zero that comes up in reading was refused by an operator on the way. -/
def Accounts (m : Meaning V) (ending : Ending) (read : Reader V) : Prop :=
  ∀ tokens e, read tokens = .error e → e.cause = .divisionByZero → m.RefusesOperand ending tokens e

theorem accounts_signedFactor (hpower : m.Accounts ending (m.reader ending n .power)) :
    m.Accounts ending (m.reader ending n .signedFactor) := by
  intro tokens e h he
  cases tokens with
  | nil => exact hpower _ _ h he
  | cons t rest =>
    cases hsign : t.token.sign? with
    | none =>
      rw [reader_unsigned (by simpa using hsign)] at h
      exact hpower _ _ h he
    | some sign =>
      rw [reader_signed hsign] at h
      rcases bind_eq_error.mp h with h | ⟨p, -, h⟩
      · exact (hpower _ _ h he).append [t]
      · cases h

theorem accounts_resume (hm : m.Knows known) (joins : Phrase.Joins phrase tier operand)
    (hoperand : m.Accounts ending (m.reader ending n operand)) (tokens : List Located) :
    ∀ v e, m.resume ending n phrase v tokens = .error e → e.cause = .divisionByZero →
      m.RefusesOperand ending tokens e := by
  induction hlength : tokens.length using Nat.strongRecOn generalizing tokens with
  | _ length ih =>
    intro v e hread he
    cases tokens with
    | nil =>
      rw [resume_joined joins] at hread
      cases hread
    | cons t rest =>
      cases hop : Operator.ofTier? tier t.token with
      | none =>
        rw [resume_joined joins, chain, hop] at hread
        cases hread
      | some op =>
        rw [resume_cons joins hop] at hread
        rcases bind_eq_error.mp hread with h | ⟨⟨right, behind⟩, hright, h⟩
        · exact (hoperand _ _ h he).append [t]
        · obtain ⟨used, tree, rfl, -⟩ := derivation_of_reader hm hright
          rcases bind_eq_error.mp h with h | ⟨value, -, h⟩
          · refine ⟨[], t, _, op, n, v, right, behind, rfl,
              (Option.filter_eq_some_iff.mp hop).1, ?_, h⟩
            rwa [joins.operand_eq hop]
          · have hshorter : behind.length < length := by
              rw [← hlength, List.length_cons, List.length_append]
              omega
            exact ((ih _ hshorter behind rfl _ _ h he).append used).append [t]

section Steps

variable (hending : ending.error.cause ≠ .divisionByZero)
include hending

theorem not_division_of_advance (h : ending.advance rest = .error e) :
    e.cause ≠ .divisionByZero := by
  rcases ending.advance_ok_or_fault rest with hok | ⟨rfl, d, rfl⟩
  · rw [hok] at h
    cases h
  · cases h
    exact hending

theorem not_division_of_close (h : close ending rest = .error e) : e.cause ≠ .divisionByZero := by
  cases rest with
  | nil =>
    cases h
    exact hending
  | cons t rest =>
    rw [close] at h
    split at h
    · exact not_division_of_advance hending h
    · cases h
      exact Cause.noConfusion

theorem not_division_of_operandError (tokens : List Located) :
    (ending.operandError tokens).cause ≠ .divisionByZero := by
  cases tokens with
  | nil => exact hending
  | cons t rest =>
    rw [Ending.operandError]
    split <;> exact Cause.noConfusion

theorem accounts_atom (inner : ∀ k < n, ∀ phrase, m.Accounts ending (m.reader ending k phrase)) :
    m.Accounts ending (m.reader ending n .atom) := by
  intro tokens e h he
  cases tokens with
  | nil =>
    cases h
    exact absurd he hending
  | cons t rest =>
    cases ht : t.token with
    | number value =>
      rw [reader_number ht] at h
      rcases bind_eq_error.mp h with h | ⟨a, -, h⟩
      · exact absurd he (not_division_of_advance hending h)
      · cases h
    | identifier name =>
      cases hcall : m.call? t.position name with
      | none =>
        rw [reader_unknown ht hcall] at h
        cases h
        cases he
      | some apply =>
        cases n with
        | zero =>
          rw [reader_call_zero ht hcall] at h
          cases h
          cases he
        | succ k =>
          rw [reader_call ht hcall] at h
          rcases bind_eq_error.mp h with h | ⟨p, -, h⟩
          · exact (inner k k.lt_succ_self .atom _ _ h he).append [t]
          · cases h
    | symbol s =>
      by_cases hs : s = .lparen
      · subst hs
        cases n with
        | zero =>
          rw [reader_group_zero ht] at h
          cases h
          cases he
        | succ k =>
          rw [reader_group ht] at h
          rcases bind_eq_error.mp h with h | ⟨p, -, h⟩
          · exact (inner k k.lt_succ_self .expression _ _ h he).append [t]
          · rcases bind_eq_error.mp h with h | ⟨a, -, h⟩
            · exact absurd he (not_division_of_close hending h)
            · cases h
      · have hatom : t.token.startsAtom = false := by
          rw [ht]
          cases s <;> first | rfl | exact absurd rfl hs
        rw [reader_operandError (by simpa using hatom)] at h
        cases h
        exact absurd he (not_division_of_operandError hending _)

theorem accounts_power (hm : m.Knows known)
    (inner : ∀ k < n, ∀ phrase, m.Accounts ending (m.reader ending k phrase))
    (hatom : m.Accounts ending (m.reader ending n .atom)) :
    m.Accounts ending (m.reader ending n .power) := by
  intro tokens e hread he
  cases hbase : m.reader ending n .atom tokens with
  | error d =>
    rw [reader_base_error hbase] at hread
    exact hatom _ _ (hbase.trans hread) he
  | ok p =>
    obtain ⟨base, rest⟩ := p
    obtain ⟨used, tree, rfl, -⟩ := derivation_of_reader hm hbase
    have hvalue : m.reader ending n .atom (used ++ rest) =
        Except.ok base >>= fun v => .ok (v, rest) := hbase
    by_cases hcaret : ∃ t behind, rest = t :: behind ∧ t.token = .symbol .caret
    · obtain ⟨t, rest, rfl, ht⟩ := hcaret
      cases n with
      | zero =>
        rw [reader_raised_zero hvalue ht, ok_bind] at hread
        rcases bind_eq_error.mp hread with h | ⟨behind, -, h⟩
        · exact absurd he (not_division_of_advance hending h)
        · cases h
          cases he
      | succ k =>
        rw [reader_raised hvalue ht, ok_bind] at hread
        rcases bind_eq_error.mp hread with h | ⟨⟨exponent, behind⟩, hexponent, h⟩
        · exact ((inner k k.lt_succ_self .power _ _ h he).append [t]).append used
        · rcases bind_eq_error.mp h with h | ⟨value, -, h⟩
          · exact ⟨used, t, rest, .pow, k, base, exponent, behind, rfl, by rw [ht]; rfl,
              hexponent, h⟩
          · cases h
    · have hstops : Phrase.Stops .power rest := by
        cases rest with
        | nil => exact Phrase.clear_nil _
        | cons t rest => exact Phrase.stops_power fun ht => hcaret ⟨t, rest, rfl, ht⟩
      rw [reader_base hvalue hstops] at hread
      cases hread

theorem reader_accounts (hm : m.Knows known) (n : Nat) (phrase : Phrase) :
    m.Accounts ending (m.reader ending n phrase) := by
  induction n, phrase using Phrase.level_induction with
  | atom n inner => exact accounts_atom hending inner
  | power n inner hatom => exact accounts_power hending hm inner hatom
  | signedFactor n hpower => exact accounts_signedFactor hpower
  | joined n phrase tier operand joins hoperand =>
    intro tokens e hread he
    rw [reader_joined joins] at hread
    rcases bind_eq_error.mp hread with h | ⟨⟨left, rest⟩, hleft, h⟩
    · exact hoperand _ _ h he
    · obtain ⟨used, tree, rfl, -⟩ := derivation_of_reader hm hleft
      exact (accounts_resume hm joins hoperand rest _ _ h he).append used

end Steps

end Meaning

/-- A division by zero stands in front of a signed factor whose value is zero. -/
theorem FunctionTable.zero_divisor (functions : FunctionTable) {input : Input} {e : EvalError}
    (hending : input.ending.error.cause ≠ .divisionByZero)
    (h : functions.meaning.read input = .error e) (he : e.cause = .divisionByZero) :
    ∃ front t used rest tree v, input.tokens = front ++ t :: (used ++ rest) ∧
      (t.token = .symbol .slash ∨ t.token = .symbol .percent) ∧ e.position = t.position ∧
      Derives .signedFactor used tree ∧ Phrase.Stops .signedFactor rest ∧
      tree.Yields functions v ∧ (v == 0) = true := by
  have hm := functions.meaning_knows
  have hrefuses : functions.meaning.RefusesOperand input.ending input.tokens e := by
    rcases bind_eq_error.mp h with h | ⟨⟨value, rest⟩, hvalue, h⟩
    · exact Meaning.reader_accounts hending hm nestingLimit .expression _ _ h he
    · cases rest with
      | nil => cases h
      | cons t rest =>
        simp only [Meaning.expectEnd] at h
        split at h <;> cases h <;> cases he
  obtain ⟨front, t, back, op, n, a, b, rest, htokens, hop, hread, hcombine⟩ := hrefuses
  obtain ⟨hdiv, hb, rfl⟩ := Operator.apply_eq_error_iff.mp hcombine
  have hoperand : op.operand = .signedFactor := by
    rcases hdiv with rfl | rfl <;> rfl
  rw [hoperand] at hread
  obtain ⟨used, tree, rfl, hadmits, hstops, hdenote⟩ := Meaning.derivation_of_reader hm hread
  rw [functions.denote_meaning] at hdenote
  exact ⟨front, t, used, rest, tree, b, htokens, Operator.token_of_division hop hdiv, rfl,
    hadmits.derives, hstops, Expr.yields_iff.mpr hdenote, hb⟩

end Reckoner

import Reckoner.Proofs.Grammar.Failure

/-!
# The productions, step by step

The production of every phrase, each described by what it does with the first token that it looks
at. A production never leaves more tokens than it found, and a phrase is never read out of nothing.
-/
namespace Reckoner

theorem bind_eq_ok {ε α β : Type} {x : Except ε α} {f : α → Except ε β} {b : β} :
    x >>= f = .ok b ↔ ∃ a, x = .ok a ∧ f a = .ok b := by
  cases x <;> simp [bind, Except.bind]

theorem bind_eq_error {ε α β : Type} {x : Except ε α} {f : α → Except ε β} {e : ε} :
    x >>= f = .error e ↔ x = .error e ∨ ∃ a, x = .ok a ∧ f a = .error e := by
  cases x <;> simp [bind, Except.bind]

@[simp] theorem ok_bind {ε α β : Type} (a : α) (f : α → Except ε β) :
    (Except.ok a >>= f) = f a := rfl

@[simp] theorem error_bind {ε α β : Type} (e : ε) (f : α → Except ε β) :
    (Except.error e >>= f) = .error e := rfl

namespace Meaning

variable {V : Type} (m : Meaning V) (ending : Ending)

/-- The production of a phrase while `n` more levels may be opened. -/
def reader (n : Nat) : Phrase → Reader V
  | .expression => expression m ending (inside m ending n)
  | .term => term m ending (inside m ending n)
  | .signedFactor => signedFactor m ending (inside m ending n)
  | .power => power m ending (inside m ending n)
  | .atom => atom m ending (inside m ending n)

/-- Joins the operands that follow to those of a phrase that were read already. -/
def resume (n : Nat) : Phrase → V → Reader V
  | .expression, left, rest => chain m ending .sum (reader m ending n .term) rest left rest
  | .term, left, rest => chain m ending .product (reader m ending n .signedFactor) rest left rest
  | _, left, rest => .ok (left, rest)

variable {m ending} {n : Nat} {phrase operand : Phrase} {tier : Tier} {t : Located}
  {tokens rest : List Located}

theorem reader_joined (joins : Phrase.Joins phrase tier operand) (tokens : List Located) :
    m.reader ending n phrase tokens =
      m.reader ending n operand tokens >>= fun p => m.resume ending n phrase p.1 p.2 := by
  cases joins <;> rfl

section Progress

theorem advance_eq_ok {other : List Located} (h : ending.advance rest = .ok other) :
    other = rest := by
  rcases ending.advance_ok_or_fault rest with hok | ⟨rfl, e, rfl⟩
  · exact (Except.ok.inj (hok.symm.trans h)).symm
  · cases h

theorem close_eq_ok {other : List Located} (h : close ending rest = .ok other) :
    other.length < rest.length := by
  cases rest with
  | nil => cases h
  | cons t rest =>
    rw [close] at h
    split at h
    · rw [advance_eq_ok h]
      exact rest.length.lt_succ_self
    · cases h

theorem chain_length_le {read : Reader V}
    (hread : ∀ tokens v rest, read tokens = .ok (v, rest) → rest.length ≤ tokens.length)
    (clock : List Located) : ∀ left tokens v rest,
      chain m ending tier read clock left tokens = .ok (v, rest) → rest.length ≤ tokens.length := by
  induction clock with
  | nil =>
    intro left tokens v rest h
    cases h
    exact Nat.le_refl _
  | cons c clock ih =>
    intro left tokens v rest h
    cases tokens with
    | nil =>
      cases h
      exact Nat.le_refl _
    | cons t tokens =>
      rw [chain] at h
      split at h
      · obtain ⟨tokens', hadvance, h⟩ := bind_eq_ok.mp h
        obtain ⟨⟨right, others⟩, hright, h⟩ := bind_eq_ok.mp h
        obtain ⟨value, -, h⟩ := bind_eq_ok.mp h
        have hothers := hread _ _ _ hright
        rw [advance_eq_ok hadvance] at hothers
        exact Nat.le_trans (ih _ _ _ _ h) (Nat.le_succ_of_le hothers)
      · cases h
        exact Nat.le_refl _

/-- Any clock that does not run out before the tokens do reads the same. -/
theorem chain_clock_eq {read : Reader V}
    (hread : ∀ tokens v rest, read tokens = .ok (v, rest) → rest.length ≤ tokens.length)
    (clock : List Located) : ∀ other left tokens,
      tokens.length ≤ clock.length → tokens.length ≤ other.length →
      chain m ending tier read clock left tokens = chain m ending tier read other left tokens := by
  induction clock with
  | nil =>
    intro other left tokens hclock hother
    obtain rfl := List.length_eq_zero_iff.mp (Nat.le_zero.mp hclock)
    cases other <;> rfl
  | cons c clock ih =>
    intro other left tokens hclock hother
    cases tokens with
    | nil => cases other <;> rfl
    | cons t tokens =>
      cases other with
      | nil => cases hother
      | cons c' other =>
        rw [chain, chain]
        cases Operator.ofTier? tier t.token with
        | none => rfl
        | some op =>
          dsimp only
          cases hadvance : ending.advance tokens with
          | error e => rfl
          | ok tokens' =>
            obtain rfl := advance_eq_ok hadvance
            rw [ok_bind, ok_bind]
            cases hright : read tokens' with
            | error e => rfl
            | ok p =>
              have hle := hread _ _ _ hright
              rw [ok_bind, ok_bind]
              cases m.combine op t.position left p.1 with
              | error e => rfl
              | ok value =>
                exact ih other value p.2 (Nat.le_trans hle (Nat.le_of_succ_le_succ hclock))
                  (Nat.le_trans hle (Nat.le_of_succ_le_succ hother))

end Progress

section Equations

theorem reader_nil (n : Nat) (phrase : Phrase) :
    m.reader ending n phrase [] = .error ending.error := by
  cases phrase <;> rfl

/-- A production that is wanted next fails at the end of the tokens just as moving on does. -/
theorem advance_bind_reader (n : Nat) (phrase : Phrase) (tokens : List Located) :
    (ending.advance tokens >>= m.reader ending n phrase) = m.reader ending n phrase tokens := by
  rcases ending.advance_ok_or_fault tokens with h | ⟨rfl, e, rfl⟩
  · rw [h, ok_bind]
  · rw [reader_nil]
    rfl

theorem reader_operandError (h : ∀ t ∈ tokens.head?, t.token.startsAtom = false) :
    m.reader ending n .atom tokens = .error (ending.operandError tokens) := by
  cases tokens with
  | nil => rfl
  | cons t tokens =>
    have ht := h t rfl
    cases htoken : t.token with
    | symbol s => cases s <;> simp_all [Token.startsAtom, reader, atom, Ending.operandError]
    | number value => simp [htoken, Token.startsAtom] at ht
    | identifier name => simp [htoken, Token.startsAtom] at ht

theorem reader_number {value : Float} (h : t.token = .number value) :
    m.reader ending n .atom (t :: rest) =
      ending.advance rest >>= fun rest => .ok (m.number value, rest) := by
  rw [reader, atom, h]
  rfl

theorem reader_unknown {name : String} (h : t.token = .identifier name)
    (hcall : m.call? t.position name = none) :
    m.reader ending n .atom (t :: rest) = .error ⟨t.position, .unknownFunction name⟩ := by
  rw [reader, atom, h]
  simp only [hcall]

theorem reader_call_zero {name : String} {apply : V → V} (h : t.token = .identifier name)
    (hcall : m.call? t.position name = some apply) :
    m.reader ending 0 .atom (t :: rest) = .error ⟨t.position, .nestingTooDeep nestingLimit⟩ := by
  rw [reader, atom, h]
  simp only [hcall]
  rfl

theorem reader_call {name : String} {apply : V → V} (h : t.token = .identifier name)
    (hcall : m.call? t.position name = some apply) :
    m.reader ending (n + 1) .atom (t :: rest) =
      m.reader ending n .atom rest >>= fun p => .ok (apply p.1, p.2) := by
  rw [reader, atom, h, ← advance_bind_reader n .atom rest, bind_assoc]
  simp only [hcall]
  rfl

theorem reader_group_zero (h : t.token = .symbol .lparen) :
    m.reader ending 0 .atom (t :: rest) = .error ⟨t.position, .nestingTooDeep nestingLimit⟩ := by
  rw [reader, atom, h]
  rfl

theorem reader_group (h : t.token = .symbol .lparen) :
    m.reader ending (n + 1) .atom (t :: rest) =
      m.reader ending n .expression rest >>= fun p =>
        close ending p.2 >>= fun rest => .ok (m.group p.1, rest) := by
  change atom m ending (inside m ending (n + 1)) (t :: rest) = _
  rw [atom, h, ← advance_bind_reader n .expression rest, bind_assoc]
  rfl

theorem reader_signed {sign : Sign} (h : t.token.sign? = some sign) :
    m.reader ending n .signedFactor (t :: rest) =
      m.reader ending n .power rest >>= fun p => .ok (m.sign sign p.1, p.2) := by
  rw [reader, signedFactor, h, ← advance_bind_reader n .power rest, bind_assoc]
  rfl

theorem reader_unsigned (h : ∀ t ∈ tokens.head?, t.token.sign? = none) :
    m.reader ending n .signedFactor tokens = m.reader ending n .power tokens := by
  cases tokens with
  | nil => rfl
  | cons t tokens =>
    rw [reader, signedFactor, h t rfl]
    rfl

/-- What reading a power comes to, once it is known what reading its base does. -/
theorem reader_base {x : Except EvalError V}
    (h : m.reader ending n .atom tokens = x >>= fun v => .ok (v, rest))
    (hstops : Phrase.Stops .power rest) :
    m.reader ending n .power tokens = x >>= fun v => .ok (v, rest) := by
  change (m.reader ending n .atom tokens >>= _) = _
  rw [h]
  cases x with
  | error e => rfl
  | ok v =>
    cases rest with
    | nil => rfl
    | cons t rest =>
      have ht : t.token ≠ .symbol .caret := fun ht =>
        hstops t rfl .pow (by simp [ht, Operator.ofToken?]) (by simp [Phrase.tiers, Operator.tier])
      simp only [ok_bind, if_neg ht]
      rfl

theorem reader_base_error {e : EvalError} (h : m.reader ending n .atom tokens = .error e) :
    m.reader ending n .power tokens = .error e := by
  change (m.reader ending n .atom tokens >>= _) = _
  rw [h]
  rfl

theorem reader_raised_zero {x : Except EvalError V}
    (h : m.reader ending 0 .atom tokens = x >>= fun v => .ok (v, t :: rest))
    (ht : t.token = .symbol .caret) :
    m.reader ending 0 .power tokens = x >>= fun _ => ending.advance rest >>= fun _ =>
      .error ⟨t.position, .nestingTooDeep nestingLimit⟩ := by
  change (m.reader ending 0 .atom tokens >>= _) = _
  rw [h]
  cases x with
  | error e => rfl
  | ok v =>
    simp only [ok_bind, if_pos ht]
    rfl

theorem reader_raised {x : Except EvalError V}
    (h : m.reader ending (n + 1) .atom tokens = x >>= fun v => .ok (v, t :: rest))
    (ht : t.token = .symbol .caret) :
    m.reader ending (n + 1) .power tokens = x >>= fun v =>
      m.reader ending n .power rest >>= fun p =>
        m.combine .pow t.position v p.1 >>= fun value => .ok (value, p.2) := by
  change (m.reader ending (n + 1) .atom tokens >>= _) = _
  rw [h, ← advance_bind_reader n .power rest]
  cases x with
  | error e => rfl
  | ok v =>
    simp only [ok_bind, if_pos ht, bind_assoc]
    rfl

theorem resume_joined (joins : Phrase.Joins phrase tier operand) (v : V) (rest : List Located) :
    m.resume ending n phrase v rest =
      chain m ending tier (m.reader ending n operand) rest v rest := by
  cases joins <;> rfl

end Equations

section Consumption

def Consumes (read : Reader V) : Prop :=
  ∀ tokens v rest, read tokens = .ok (v, rest) → rest.length < tokens.length

theorem atom_consumes (inner : ∀ k < n, ∀ phrase, Consumes (m.reader ending k phrase)) :
    Consumes (m.reader ending n .atom) := by
  intro tokens v rest h
  cases tokens with
  | nil => cases h
  | cons t tokens =>
    rw [List.length_cons, Nat.lt_succ_iff]
    cases ht : t.token with
    | number value =>
      rw [reader_number ht] at h
      obtain ⟨others, hadvance, h⟩ := bind_eq_ok.mp h
      cases h
      exact Nat.le_of_eq (congrArg List.length (advance_eq_ok hadvance))
    | identifier name =>
      cases hcall : m.call? t.position name with
      | none =>
        rw [reader_unknown ht hcall] at h
        cases h
      | some apply =>
        cases n with
        | zero =>
          rw [reader_call_zero ht hcall] at h
          cases h
        | succ k =>
          rw [reader_call ht hcall] at h
          obtain ⟨⟨argument, rest'⟩, hargument, h⟩ := bind_eq_ok.mp h
          cases h
          exact Nat.le_of_lt (inner k k.lt_succ_self .atom _ _ _ hargument)
    | symbol s =>
      cases s with
      | lparen =>
        cases n with
        | zero =>
          rw [reader_group_zero ht] at h
          cases h
        | succ k =>
          rw [reader_group ht] at h
          obtain ⟨⟨value, behind⟩, hinside, h⟩ := bind_eq_ok.mp h
          obtain ⟨rest', hclose, h⟩ := bind_eq_ok.mp h
          cases h
          have hbehind := inner k k.lt_succ_self .expression _ _ _ hinside
          exact Nat.le_of_lt (Nat.lt_trans (close_eq_ok hclose) hbehind)
      | _ =>
        rw [reader_operandError (by simp [ht, Token.startsAtom])] at h
        cases h

theorem power_consumes (inner : ∀ k < n, ∀ phrase, Consumes (m.reader ending k phrase))
    (hatom : Consumes (m.reader ending n .atom)) : Consumes (m.reader ending n .power) := by
  intro tokens v rest h
  cases hbase : m.reader ending n .atom tokens with
  | error e =>
    rw [reader_base_error hbase] at h
    cases h
  | ok p =>
    obtain ⟨base, behind⟩ := p
    have hlt := hatom _ _ _ hbase
    have hbase : m.reader ending n .atom tokens = Except.ok base >>= fun v => .ok (v, behind) :=
      hbase
    have hplain (hstops : Phrase.Stops .power behind) : rest.length < tokens.length := by
      rw [reader_base hbase hstops] at h
      cases h
      exact hlt
    cases behind with
    | nil => exact hplain (Phrase.clear_nil _)
    | cons t others =>
      by_cases ht : t.token = .symbol .caret
      · cases n with
        | zero =>
          rw [reader_raised_zero hbase ht] at h
          obtain ⟨base, -, h⟩ := bind_eq_ok.mp h
          obtain ⟨others, -, h⟩ := bind_eq_ok.mp h
          cases h
        | succ k =>
          rw [reader_raised hbase ht] at h
          obtain ⟨base, -, h⟩ := bind_eq_ok.mp h
          obtain ⟨⟨exponent, rest'⟩, hexponent, h⟩ := bind_eq_ok.mp h
          obtain ⟨value, -, h⟩ := bind_eq_ok.mp h
          cases h
          have hless := inner k k.lt_succ_self .power _ _ _ hexponent
          rw [List.length_cons] at hlt
          exact Nat.lt_trans hless (Nat.lt_of_succ_lt hlt)
      · exact hplain (Phrase.stops_power ht)

theorem signedFactor_consumes (hpower : Consumes (m.reader ending n .power)) :
    Consumes (m.reader ending n .signedFactor) := by
  intro tokens v rest h
  cases tokens with
  | nil => cases h
  | cons t tokens =>
    cases ht : t.token.sign? with
    | none =>
      rw [reader_unsigned (by simpa using ht)] at h
      exact hpower _ _ _ h
    | some sign =>
      rw [reader_signed ht] at h
      obtain ⟨⟨value, rest'⟩, hvalue, h⟩ := bind_eq_ok.mp h
      cases h
      exact Nat.lt_succ_of_lt (hpower _ _ _ hvalue)

theorem joined_consumes (joins : Phrase.Joins phrase tier operand)
    (hoperand : Consumes (m.reader ending n operand)) : Consumes (m.reader ending n phrase) := by
  intro tokens v rest h
  rw [reader_joined joins] at h
  obtain ⟨⟨left, others⟩, hleft, hmore⟩ := bind_eq_ok.mp h
  rw [resume_joined joins] at hmore
  have hle (tokens : List Located) (v : V) (rest : List Located)
      (h : m.reader ending n operand tokens = .ok (v, rest)) : rest.length ≤ tokens.length :=
    Nat.le_of_lt (hoperand _ _ _ h)
  exact Nat.lt_of_le_of_lt (chain_length_le hle _ _ _ _ _ hmore) (hoperand _ _ _ hleft)

/-- A phrase is never read out of nothing. -/
theorem reader_length_lt (n : Nat) (phrase : Phrase) : Consumes (m.reader ending n phrase) := by
  induction n, phrase using Phrase.level_induction with
  | atom n inner => exact atom_consumes inner
  | power n inner hatom => exact power_consumes inner hatom
  | signedFactor n hpower => exact signedFactor_consumes hpower
  | joined n phrase tier operand joins hoperand => exact joined_consumes joins hoperand

end Consumption

section Resumption

theorem resume_of_stops (h : phrase.Stops rest) (v : V) :
    m.resume ending n phrase v rest = .ok (v, rest) := by
  have hjoined {operand : Phrase} {tier : Tier} (joins : Phrase.Joins phrase tier operand) :
      m.resume ending n phrase v rest = .ok (v, rest) := by
    rw [resume_joined joins]
    rw [Phrase.Stops, joins.tiers_eq, Phrase.clear_cons_iff] at h
    cases rest with
    | nil => rfl
    | cons t rest => rw [chain, h.2 t rfl]
  cases phrase with
  | expression => exact hjoined .expression
  | term => exact hjoined .term
  | signedFactor | power | atom => rfl

theorem resume_cons {op : Operator} (joins : Phrase.Joins phrase tier operand)
    (h : Operator.ofTier? tier t.token = some op) (v : V) :
    m.resume ending n phrase v (t :: rest) =
      m.reader ending n operand rest >>= fun p =>
        m.combine op t.position v p.1 >>= fun value => m.resume ending n phrase value p.2 := by
  have hle : ∀ tokens v rest, m.reader ending n operand tokens = .ok (v, rest) →
      rest.length ≤ tokens.length :=
    fun _ _ _ h => Nat.le_of_lt (reader_length_lt n operand _ _ _ h)
  rw [resume_joined joins, chain, h, ← advance_bind_reader n operand rest, bind_assoc]
  cases hadvance : ending.advance rest with
  | error e => rfl
  | ok rest' =>
    obtain rfl := advance_eq_ok hadvance
    dsimp only
    rw [ok_bind, ok_bind]
    cases hright : m.reader ending n operand rest' with
    | error e => rfl
    | ok p =>
      rw [ok_bind, ok_bind]
      cases m.combine op t.position v p.1 with
      | error e => rfl
      | ok value =>
        rw [ok_bind, ok_bind, resume_joined joins]
        exact chain_clock_eq hle _ _ _ _ (hle _ _ _ hright) (Nat.le_refl _)

theorem read_of_reader {x : Except EvalError V}
    (h : m.reader ending nestingLimit .expression tokens = x >>= fun v => .ok (v, [])) :
    m.read ⟨tokens, ending⟩ = x := by
  change (m.reader ending nestingLimit .expression tokens >>= _) = x
  rw [h]
  cases x <;> rfl

end Resumption

end Meaning

end Reckoner

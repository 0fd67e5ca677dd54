import Reckoner.Proofs.Grammar.Value

/-!
# Levels that may be opened

The number of levels that may still be opened does nothing but stop a reading. Main statements:
with fewer levels the same is read or the levels run out, and tokens that have a value are read as
long as their tree keeps within the levels, and only so long.
-/
namespace Reckoner

/-- The first outcome is the second, unless the levels ran out before. -/
inductive Curtails {α : Type} : Except EvalError α → Except EvalError α → Prop where
  | same {outcome : Except EvalError α} : Curtails outcome outcome
  | tooDeep {position : Nat} {outcome : Except EvalError α} :
      Curtails (.error ⟨position, .nestingTooDeep nestingLimit⟩) outcome

theorem Curtails.bind {α β : Type} {first second : Except EvalError α}
    {f g : α → Except EvalError β} (h : Curtails first second)
    (hnext : ∀ a, Curtails (f a) (g a)) : Curtails (first >>= f) (second >>= g) := by
  cases h with
  | same =>
    cases first with
    | ok a => exact hnext a
    | error e => exact .same
  | tooDeep => exact .tooDeep

/-- The outcome is the result if the condition on levels holds, and otherwise they run out. -/
structure Limited {α : Type} (allowed : Prop) (result outcome : Except EvalError α) : Prop where
  enough (h : allowed) : outcome = result
  tooDeep (h : ¬ allowed) :
    ∃ position, outcome = .error ⟨position, .nestingTooDeep nestingLimit⟩

theorem Limited.bind {α β : Type} {first second : Prop} {a : α} {outcome : Except EvalError α}
    {result : Except EvalError β} {f : α → Except EvalError β}
    (h : Limited first (.ok a) outcome) (hnext : Limited second result (f a)) :
    Limited (first ∧ second) result (outcome >>= f) where
  enough hboth := by
    rw [h.enough hboth.1, ok_bind]
    exact hnext.enough hboth.2
  tooDeep hnot := by
    by_cases hfirst : first
    · rw [h.enough hfirst, ok_bind]
      exact hnext.tooDeep fun hsecond => hnot ⟨hfirst, hsecond⟩
    · obtain ⟨position, houtcome⟩ := h.tooDeep hfirst
      exact ⟨position, by rw [houtcome, error_bind]⟩

theorem Limited.on_value {α β : Type} {allowed : Prop} {a : α} {outcome : Except EvalError α}
    (h : Limited allowed (.ok a) outcome) (f : α → Except EvalError β) :
    Limited allowed (f a) (outcome >>= f) where
  enough hallowed := by rw [h.enough hallowed, ok_bind]
  tooDeep hnot := by
    obtain ⟨position, houtcome⟩ := h.tooDeep hnot
    exact ⟨position, by rw [houtcome, error_bind]⟩

theorem Limited.congr {α : Type} {allowed other : Prop} {result outcome : Except EvalError α}
    (h : Limited allowed result outcome) (hiff : other ↔ allowed) :
    Limited other result outcome where
  enough hother := h.enough (hiff.mp hother)
  tooDeep hnot := h.tooDeep (mt hiff.mpr hnot)

namespace Meaning

variable {V : Type} (m : Meaning V) (ending : Ending)

structure LevelCurtails (level level' : Level V) : Prop where
  expression (tokens : List Located) : Curtails (level.expression tokens) (level'.expression tokens)
  power (tokens : List Located) : Curtails (level.power tokens) (level'.power tokens)
  atom (tokens : List Located) : Curtails (level.atom tokens) (level'.atom tokens)

/-- The first level, if it may be opened at all, is curtailed from the second. -/
def Fewer (inner inner' : Option (Level V)) : Prop :=
  ∀ level ∈ inner, ∃ level' ∈ inner', LevelCurtails level level'

theorem chain_curtails {operand operand' : Reader V}
    (hoperand : ∀ tokens, Curtails (operand tokens) (operand' tokens)) (tier : Tier)
    (clock : List Located) : ∀ left tokens,
      Curtails (chain m ending tier operand clock left tokens)
        (chain m ending tier operand' clock left tokens) := by
  induction clock with
  | nil => exact fun left tokens => .same
  | cons c clock ih =>
    intro left tokens
    cases tokens with
    | nil => exact .same
    | cons t rest =>
      rw [chain, chain]
      cases Operator.ofTier? tier t.token with
      | none => exact .same
      | some op =>
        exact Curtails.same.bind fun rest => (hoperand rest).bind fun p =>
          Curtails.same.bind fun value => ih value p.2

theorem joined_curtails {operand operand' : Reader V}
    (hoperand : ∀ tokens, Curtails (operand tokens) (operand' tokens)) (tier : Tier)
    (tokens : List Located) :
    Curtails (joined m ending tier operand tokens) (joined m ending tier operand' tokens) :=
  (hoperand tokens).bind fun p => chain_curtails m ending hoperand tier p.2 p.1 p.2

section Productions

variable {inner inner' : Option (Level V)} (h : Fewer inner inner')
include h

theorem Fewer.enter_bind {α : Type} (position : Nat) {f g : Level V → Except EvalError α}
    (hnext : ∀ level level', LevelCurtails level level' → Curtails (f level) (g level')) :
    Curtails (enter inner position >>= f) (enter inner' position >>= g) := by
  cases inner with
  | none => exact .tooDeep
  | some level =>
    obtain ⟨level', rfl, hlevel⟩ := h level rfl
    exact hnext level level' hlevel

theorem atom_curtails (tokens : List Located) :
    Curtails (atom m ending inner tokens) (atom m ending inner' tokens) := by
  cases tokens with
  | nil => exact .same
  | cons t rest =>
    rw [atom, atom]
    cases t.token with
    | number value => exact .same
    | identifier name =>
      dsimp only
      cases m.call? t.position name with
      | none => exact .same
      | some apply =>
        exact h.enter_bind _ fun level level' hlevel =>
          Curtails.same.bind fun rest => (hlevel.atom rest).bind fun p => .same
    | symbol s =>
      cases s with
      | lparen =>
        exact h.enter_bind _ fun level level' hlevel =>
          Curtails.same.bind fun rest => (hlevel.expression rest).bind fun p => .same
      | _ => exact .same

theorem power_curtails (tokens : List Located) :
    Curtails (power m ending inner tokens) (power m ending inner' tokens) := by
  refine (atom_curtails m ending h tokens).bind fun p => ?_
  obtain ⟨base, rest⟩ := p
  cases rest with
  | nil => exact .same
  | cons t rest =>
    by_cases hcaret : t.token = .symbol .caret
    · simp only [if_pos hcaret]
      exact Curtails.same.bind fun rest => h.enter_bind _ fun level level' hlevel =>
        (hlevel.power rest).bind fun p => .same
    · simp only [if_neg hcaret]
      exact .same

theorem signedFactor_curtails (tokens : List Located) :
    Curtails (signedFactor m ending inner tokens) (signedFactor m ending inner' tokens) := by
  cases tokens with
  | nil => exact power_curtails m ending h []
  | cons t rest =>
    rw [signedFactor, signedFactor]
    cases t.token.sign? with
    | none => exact power_curtails m ending h _
    | some sign =>
      exact Curtails.same.bind fun rest => (power_curtails m ending h rest).bind fun p => .same

theorem term_curtails (tokens : List Located) :
    Curtails (term m ending inner tokens) (term m ending inner' tokens) :=
  joined_curtails m ending (signedFactor_curtails m ending h) .product tokens

theorem expression_curtails (tokens : List Located) :
    Curtails (expression m ending inner tokens) (expression m ending inner' tokens) :=
  joined_curtails m ending (term_curtails m ending h) .sum tokens

end Productions

theorem fewer_inside {k n : Nat} (h : k ≤ n) : Fewer (inside m ending k) (inside m ending n) := by
  induction k generalizing n with
  | zero => exact nofun
  | succ k ih =>
    obtain ⟨n, rfl⟩ := Nat.exists_eq_add_of_le' (Nat.zero_lt_of_lt h)
    have hinner := ih (Nat.le_of_succ_le_succ h)
    rintro level ⟨⟩
    exact ⟨_, rfl, expression_curtails m ending hinner, power_curtails m ending hinner,
      atom_curtails m ending hinner⟩

variable {m ending} {k n : Nat} {phrase : Phrase} {used rest : List Located} {tree : Expr}
  {known : String → Bool} {v : V}

theorem reader_curtails (h : k ≤ n) (phrase : Phrase) (tokens : List Located) :
    Curtails (m.reader ending k phrase tokens) (m.reader ending n phrase tokens) := by
  have hinner := fewer_inside m ending h
  cases phrase with
  | expression => exact expression_curtails m ending hinner tokens
  | term => exact term_curtails m ending hinner tokens
  | signedFactor => exact signedFactor_curtails m ending hinner tokens
  | power => exact power_curtails m ending hinner tokens
  | atom => exact atom_curtails m ending hinner tokens

/-- A phrase with a value is read as long as its tree keeps within the levels, and no longer. -/
theorem reader_limited (hm : m.Knows known) (h : Derives phrase used tree)
    (hnames : NamesKnown known used) (hv : m.denote tree = .ok v) (hstops : phrase.Stops rest)
    (hadvance : ending.advance rest = .ok rest) (n : Nat) :
    Limited (tree.levels ≤ n) (.ok (v, rest)) (m.reader ending n phrase (used ++ rest)) := by
  have henough {n : Nat} (hn : tree.levels ≤ n) :
      m.reader ending n phrase (used ++ rest) = .ok (v, rest) := by
    rw [reader_of_admits hm ⟨h, hn, hnames⟩ hstops hadvance, hv, ok_bind]
  refine ⟨henough, fun hn => ?_⟩
  have hcurtails : Curtails (m.reader ending n phrase (used ++ rest))
      (m.reader ending tree.levels phrase (used ++ rest)) :=
    reader_curtails (Nat.le_of_not_le hn) phrase _
  rw [henough (Nat.le_refl _)] at hcurtails
  generalize hread : m.reader ending n phrase (used ++ rest) = outcome at hcurtails
  cases hcurtails with
  | tooDeep => exact ⟨_, rfl⟩
  | same =>
    -- What was read has a derivation of its own, within the levels, and there is only one.
    obtain ⟨used', tree', htokens, hadmits, -, -⟩ := derivation_of_reader hm hread
    obtain rfl := List.append_cancel_right htokens
    obtain rfl := hadmits.derives.unique h
    exact absurd hadmits.levels hn

end Meaning

end Reckoner

import Reckoner.Proofs.Grammar.Phrase
import Reckoner.Proofs.Source.Positions

/-!
# Where reading a phrase fails

Tokens that do not start with a phrase have a first place at which this shows. `Fails` says which
part of the phrase was read until then, which tokens remain, and what is wrong with them. Main
statement: all tokens either start with a phrase that stops there or fail in this sense.
-/
namespace Reckoner

def Token.startsAtom : Token → Bool
  | .number _ | .identifier _ | .symbol .lparen => true
  | _ => false

namespace Ending

def operandError (ending : Ending) : List Located → EvalError
  | [] => ending.error
  | t :: _ =>
    if t.token = .symbol .rparen then ⟨t.position, .missingBracket⟩
    else ⟨t.position, .notANumber t.token.display⟩

def bracketError (ending : Ending) : List Located → EvalError
  | [] => ending.error
  | t :: _ => ⟨t.position, .missingBracket⟩

section Congruence

variable {ending other : Ending} {rest rest' : List Located}

theorem head_cases (hhead : rest'.head? = rest.head?) :
    (rest = [] ∧ rest' = []) ∨ ∃ t behind behind', rest = t :: behind ∧ rest' = t :: behind' := by
  cases rest with
  | nil => exact .inl ⟨rfl, List.head?_eq_none_iff.mp hhead⟩
  | cons t behind =>
    obtain ⟨behind', hrest'⟩ := List.head?_eq_some_iff.mp hhead
    exact .inr ⟨t, behind, behind', rfl, hrest'⟩

variable (hhead : rest'.head? = rest.head?) (hending : rest = [] → other = ending)
include hhead hending

theorem operandError_congr : other.operandError rest' = ending.operandError rest := by
  rcases head_cases hhead with ⟨rfl, rfl⟩ | ⟨t, behind, behind', rfl, rfl⟩
  · rw [hending rfl]
  · rfl

theorem bracketError_congr : other.bracketError rest' = ending.bracketError rest := by
  rcases head_cases hhead with ⟨rfl, rfl⟩ | ⟨t, behind, behind', rfl, rfl⟩
  · rw [hending rfl]
  · rfl

theorem advance_congr (h : ending.advance rest = .ok rest) : other.advance rest' = .ok rest' := by
  rcases head_cases hhead with ⟨rfl, rfl⟩ | ⟨t, behind, behind', rfl, rfl⟩
  · rwa [hending rfl]
  · exact advance_cons other t behind'

end Congruence

end Ending

/-- `Fails known ending n phrase pre rest e`: such a phrase was read through `pre` while `n` more
levels could be opened, and in front of `rest` it cannot be read on, for the reason `e`. -/
inductive Fails (known : String → Bool) (ending : Ending) :
    Nat → Phrase → List Located → List Located → EvalError → Prop where
  | operand {n : Nat} {rest : List Located} (h : ∀ t ∈ rest.head?, t.token.startsAtom = false) :
      Fails known ending n .atom [] rest (ending.operandError rest)
  | unknown {n : Nat} {t : Located} {name : String} {rest : List Located}
      (h : t.token = .identifier name) (hname : known name = false) :
      Fails known ending n .atom [] (t :: rest) ⟨t.position, .unknownFunction name⟩
  | tooDeep {t : Located} {rest : List Located}
      (h : t.token = .symbol .lparen ∨ ∃ name, t.token = .identifier name ∧ known name = true) :
      Fails known ending 0 .atom [] (t :: rest) ⟨t.position, .nestingTooDeep nestingLimit⟩
  /-- A fault stands right behind a number. -/
  | number {n : Nat} {t : Located} {value : Float} {e : EvalError} (h : t.token = .number value)
      (hending : ending = .fault e) : Fails known ending n .atom [t] [] e
  | group {n : Nat} {l : Located} {pre rest : List Located} {e : EvalError}
      (hl : l.token = .symbol .lparen) (h : Fails known ending n .expression pre rest e) :
      Fails known ending (n + 1) .atom (l :: pre) rest e
  | unclosed {n : Nat} {l : Located} {tokens rest : List Located} {inside : Expr}
      (hl : l.token = .symbol .lparen) (h : Admits known n .expression tokens inside)
      (hstops : Phrase.Stops .expression rest) (hadvance : ending.advance rest = .ok rest)
      (hr : ∀ t ∈ rest.head?, t.token ≠ .symbol .rparen) :
      Fails known ending (n + 1) .atom (l :: tokens) rest (ending.bracketError rest)
  /-- A fault stands right behind a closing bracket. -/
  | closed {n : Nat} {l r : Located} {tokens : List Located} {inside : Expr} {e : EvalError}
      (hl : l.token = .symbol .lparen) (h : Admits known n .expression tokens inside)
      (hr : r.token = .symbol .rparen) (hending : ending = .fault e) :
      Fails known ending (n + 1) .atom (l :: (tokens ++ [r])) [] e
  | call {n : Nat} {t : Located} {name : String} {pre rest : List Located} {e : EvalError}
      (ht : t.token = .identifier name) (hname : known name = true)
      (h : Fails known ending n .atom pre rest e) :
      Fails known ending (n + 1) .atom (t :: pre) rest e
  | base {n : Nat} {pre rest : List Located} {e : EvalError}
      (h : Fails known ending n .atom pre rest e) : Fails known ending n .power pre rest e
  | tooHigh {t : Located} {tokens rest : List Located} {b : Expr}
      (hbase : Admits known 0 .atom tokens b) (ht : t.token = .symbol .caret)
      (hadvance : ending.advance rest = .ok rest) :
      Fails known ending 0 .power tokens (t :: rest) ⟨t.position, .nestingTooDeep nestingLimit⟩
  /-- A fault stands right behind the operator of an exponent for which no level is left. -/
  | caret {t : Located} {tokens : List Located} {b : Expr} {e : EvalError}
      (hbase : Admits known 0 .atom tokens b) (ht : t.token = .symbol .caret)
      (hending : ending = .fault e) : Fails known ending 0 .power (tokens ++ [t]) [] e
  | exponent {n : Nat} {t : Located} {tokens pre rest : List Located} {b : Expr} {e : EvalError}
      (hbase : Admits known (n + 1) .atom tokens b) (ht : t.token = .symbol .caret)
      (h : Fails known ending n .power pre rest e) :
      Fails known ending (n + 1) .power (tokens ++ t :: pre) rest e
  | unsigned {n : Nat} {pre rest : List Located} {e : EvalError}
      (hsign : ∀ t ∈ (pre ++ rest).head?, t.token.sign? = none)
      (h : Fails known ending n .power pre rest e) : Fails known ending n .signedFactor pre rest e
  | signed {n : Nat} {t : Located} {sign : Sign} {pre rest : List Located} {e : EvalError}
      (ht : t.token.sign? = some sign) (h : Fails known ending n .power pre rest e) :
      Fails known ending n .signedFactor (t :: pre) rest e
  | first {n : Nat} {phrase operand : Phrase} {tier : Tier} {pre rest : List Located}
      {e : EvalError} (joins : Phrase.Joins phrase tier operand)
      (h : Fails known ending n operand pre rest e) : Fails known ending n phrase pre rest e
  | further {n : Nat} {phrase operand : Phrase} {tier : Tier} {op : Operator} {t : Located}
      {tokens pre rest : List Located} {left : Expr} {e : EvalError}
      (joins : Phrase.Joins phrase tier operand) (hleft : Admits known n phrase tokens left)
      (ht : Operator.ofTier? tier t.token = some op) (h : Fails known ending n operand pre rest e) :
      Fails known ending n phrase (tokens ++ t :: pre) rest e

namespace Fails

variable {known : String → Bool} {ending : Ending} {n : Nat} {phrase : Phrase}
  {pre rest : List Located} {e : EvalError}

/-- A failure shows at the first token that remains; behind the last one, only the ending is to
blame. -/
theorem located (h : Fails known ending n phrase pre rest e) :
    e.position = ending.place rest ∧ (rest = [] → e = ending.error) := by
  induction h with
  | @operand n rest h =>
    cases rest with
    | nil => exact ⟨rfl, fun _ => rfl⟩
    | cons t rest =>
      refine ⟨?_, nofun⟩
      rw [Ending.operandError]
      split <;> rfl
  | unknown h hname => exact ⟨rfl, nofun⟩
  | tooDeep h => exact ⟨rfl, nofun⟩
  | number h hending => subst hending; exact ⟨rfl, fun _ => rfl⟩
  | group hl h ih => exact ih
  | @unclosed n l tokens rest inside hl h hstops hadvance hr =>
    cases rest with
    | nil => exact ⟨rfl, fun _ => rfl⟩
    | cons t rest => exact ⟨rfl, nofun⟩
  | closed hl h hr hending => subst hending; exact ⟨rfl, fun _ => rfl⟩
  | call ht hname h ih => exact ih
  | base h ih => exact ih
  | tooHigh hbase ht hadvance => exact ⟨rfl, nofun⟩
  | caret hbase ht hending => subst hending; exact ⟨rfl, fun _ => rfl⟩
  | exponent hbase ht h ih => exact ih
  | unsigned hsign h ih => exact ih
  | signed ht h ih => exact ih
  | first joins h ih => exact ih
  | further joins hleft ht h ih => exact ih

end Fails

/-- The tokens start with such a phrase, which stops where the tokens can be moved on. -/
def Reads (known : String → Bool) (ending : Ending) (n : Nat) (phrase : Phrase)
    (tokens : List Located) : Prop :=
  ∃ used rest tree, used ++ rest = tokens ∧ Admits known n phrase used tree ∧
    phrase.Stops rest ∧ ending.advance rest = .ok rest

def Breaks (known : String → Bool) (ending : Ending) (n : Nat) (phrase : Phrase)
    (tokens : List Located) : Prop :=
  ∃ pre rest e, pre ++ rest = tokens ∧ Fails known ending n phrase pre rest e

def Decides (known : String → Bool) (ending : Ending) (n : Nat) (phrase : Phrase) : Prop :=
  ∀ tokens, Reads known ending n phrase tokens ∨ Breaks known ending n phrase tokens

section Dichotomy

variable {known : String → Bool} {ending : Ending} {n : Nat} {phrase operand : Phrase} {tier : Tier}

theorem decides_atom (inner : ∀ k < n, ∀ phrase, Decides known ending k phrase) :
    Decides known ending n .atom := by
  intro tokens
  cases tokens with
  | nil => exact .inr ⟨[], [], _, rfl, .operand (by simp)⟩
  | cons t rest =>
    have hnone (h : t.token.startsAtom = false) : Breaks known ending n .atom (t :: rest) :=
      ⟨[], t :: rest, _, rfl, .operand (by simp [h])⟩
    cases ht : t.token with
    | number value =>
      rcases ending.advance_ok_or_fault rest with hadvance | ⟨rfl, e, hending⟩
      · exact .inl ⟨[t], rest, _, rfl, .number ht, by simp [Phrase.Clear, Phrase.tiers], hadvance⟩
      · exact .inr ⟨[t], [], e, rfl, .number ht hending⟩
    | identifier name =>
      cases hname : known name with
      | false => exact .inr ⟨[], t :: rest, _, rfl, .unknown ht hname⟩
      | true =>
        cases n with
        | zero => exact .inr ⟨[], t :: rest, _, rfl, .tooDeep (.inr ⟨name, ht, hname⟩)⟩
        | succ k =>
          rcases inner k k.lt_succ_self .atom rest with
            ⟨used, rest, tree, rfl, h, hstops, hadvance⟩ | ⟨pre, rest, e, rfl, h⟩
          · exact .inl ⟨t :: used, rest, _, rfl, .call ht hname h, hstops, hadvance⟩
          · exact .inr ⟨t :: pre, rest, e, rfl, .call ht hname h⟩
    | symbol s =>
      cases s with
      | lparen =>
        cases n with
        | zero => exact .inr ⟨[], t :: rest, _, rfl, .tooDeep (.inl ht)⟩
        | succ k =>
          rcases inner k k.lt_succ_self .expression rest with
            ⟨used, rest, tree, rfl, h, hstops, hadvance⟩ | ⟨pre, rest, e, rfl, h⟩
          · cases rest with
            | nil =>
              exact .inr ⟨t :: used, [], _, rfl, .unclosed ht h hstops hadvance (by simp)⟩
            | cons r rest =>
              by_cases hr : r.token = .symbol .rparen
              · rcases ending.advance_ok_or_fault rest with hadvance | ⟨rfl, e, hending⟩
                · exact .inl ⟨t :: (used ++ [r]), rest, _, by simp, .group ht h hr,
                    by simp [Phrase.Clear, Phrase.tiers], hadvance⟩
                · exact .inr ⟨t :: (used ++ [r]), [], e, by simp, .closed ht h hr hending⟩
              · exact .inr ⟨t :: used, r :: rest, _, rfl,
                  .unclosed ht h hstops hadvance (by simpa using hr)⟩
          · exact .inr ⟨t :: pre, rest, e, rfl, .group ht h⟩
      | _ => exact .inr (hnone (by simp [ht, Token.startsAtom]))

theorem decides_power (inner : ∀ k < n, ∀ phrase, Decides known ending k phrase)
    (hatom : Decides known ending n .atom) : Decides known ending n .power := by
  intro tokens
  rcases hatom tokens with ⟨used, rest, tree, rfl, h, -, hadvance⟩ | ⟨pre, rest, e, rfl, h⟩
  · cases rest with
    | nil => exact .inl ⟨used, [], _, rfl, h.base, Phrase.clear_nil _, hadvance⟩
    | cons t rest =>
      by_cases ht : t.token = .symbol .caret
      · cases n with
        | zero =>
          rcases ending.advance_ok_or_fault rest with hadvance | ⟨rfl, e, hending⟩
          · exact .inr ⟨used, t :: rest, _, rfl, .tooHigh h ht hadvance⟩
          · exact .inr ⟨used ++ [t], [], e, by simp, .caret h ht hending⟩
        | succ k =>
          rcases inner k k.lt_succ_self .power rest with
            ⟨used', rest, tree', rfl, h', hstops, hadvance⟩ | ⟨pre, rest, e, rfl, h'⟩
          · exact .inl ⟨used ++ t :: used', rest, _, by simp, h.raised ht h', hstops, hadvance⟩
          · exact .inr ⟨used ++ t :: pre, rest, e, by simp, .exponent h ht h'⟩
      · exact .inl ⟨used, t :: rest, _, rfl, h.base, Phrase.stops_power ht, hadvance⟩
  · exact .inr ⟨pre, rest, e, rfl, .base h⟩

theorem decides_signedFactor (hpower : Decides known ending n .power) :
    Decides known ending n .signedFactor := by
  intro tokens
  have hunsigned (h : ∀ t ∈ tokens.head?, t.token.sign? = none) :
      Reads known ending n .signedFactor tokens ∨ Breaks known ending n .signedFactor tokens := by
    rcases hpower tokens with
      ⟨used, rest, tree, rfl, hread, hstops, hadvance⟩ | ⟨pre, rest, e, rfl, hfail⟩
    · exact .inl ⟨used, rest, tree, rfl, hread.unsigned, hstops, hadvance⟩
    · exact .inr ⟨pre, rest, e, rfl, .unsigned h hfail⟩
  cases tokens with
  | nil => exact hunsigned (by simp)
  | cons t rest =>
    cases ht : t.token.sign? with
    | none => exact hunsigned (by simp [ht])
    | some sign =>
      rcases hpower rest with ⟨used, rest, tree, rfl, h, hstops, hadvance⟩ | ⟨pre, rest, e, rfl, h⟩
      · exact .inl ⟨t :: used, rest, _, rfl, .signed ht h, hstops, hadvance⟩
      · exact .inr ⟨t :: pre, rest, e, rfl, .signed ht h⟩

/-- Behind some operands, reading goes on as long as operators of the tier follow. -/
theorem decides_behind_operand (joins : Phrase.Joins phrase tier operand)
    (hoperand : Decides known ending n operand) (rest : List Located) :
    ∀ used tree, Admits known n phrase used tree → operand.Stops rest →
      ending.advance rest = .ok rest →
      Reads known ending n phrase (used ++ rest) ∨ Breaks known ending n phrase (used ++ rest) := by
  induction hlength : rest.length using Nat.strongRecOn generalizing rest with
  | _ length ih =>
    intro used tree h hstops hadvance
    by_cases hhead : ∀ t ∈ rest.head?, Operator.ofTier? tier t.token = none
    · refine .inl ⟨used, rest, tree, rfl, h, ?_, hadvance⟩
      rw [Phrase.Stops, joins.tiers_eq, Phrase.clear_cons_iff]
      exact ⟨hstops, hhead⟩
    · cases rest with
      | nil => simp at hhead
      | cons t rest =>
        obtain ⟨op, hop⟩ : ∃ op, Operator.ofTier? tier t.token = some op := by
          simpa [Option.ne_none_iff_exists'] using hhead
        rcases hoperand rest with
          ⟨used', rest, tree', rfl, h', hstops, hadvance⟩ | ⟨pre, rest, e, rfl, h'⟩
        · have hshorter : rest.length < length := by
            rw [← hlength, List.length_cons, List.length_append]
            omega
          have := ih rest.length hshorter rest rfl _ _ (h.joined joins hop h') hstops hadvance
          simpa using this
        · exact .inr ⟨used ++ t :: pre, rest, e, by simp, .further joins h hop h'⟩

end Dichotomy

/-- All tokens either start with a phrase that stops there or fail to. -/
theorem reads_or_breaks (known : String → Bool) (ending : Ending) (n : Nat) (phrase : Phrase) :
    Decides known ending n phrase := by
  induction n, phrase using Phrase.level_induction with
  | atom n inner => exact decides_atom inner
  | power n inner hatom => exact decides_power inner hatom
  | signedFactor n hpower => exact decides_signedFactor hpower
  | joined n phrase tier operand joins hoperand =>
    intro tokens
    rcases hoperand tokens with
      ⟨used, rest, tree, rfl, h, hstops, hadvance⟩ | ⟨pre, rest, e, rfl, h⟩
    · exact decides_behind_operand joins hoperand rest used tree (h.operand joins) hstops hadvance
    · exact .inr ⟨pre, rest, e, rfl, .first joins h⟩

end Reckoner

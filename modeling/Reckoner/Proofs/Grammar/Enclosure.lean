import Reckoner.Proofs.Grammar.Levels
import Reckoner.Proofs.Grammar.Relocation

/-!
# Readings put together

A reading that leaves nothing behind is part of larger ones: in brackets, behind a name and on both
sides of an operator. Main statements: what tokens come to by themselves they come to in brackets,
values and errors alike, if one level more may be opened.
-/
namespace Reckoner

namespace Operator

def opens : Operator → Nat
  | pow => 1
  | _ => 0

theorem token_of_pow {token : Token} (h : ofToken? token = some pow) : token = .symbol .caret := by
  cases token with
  | number value => cases h
  | identifier name => cases h
  | symbol s =>
    cases s with
    | caret => rfl
    | _ => cases h

end Operator

namespace Meaning

variable {V : Type} {m : Meaning V} {ending : Ending} {n : Nat} {phrase operand : Phrase}
  {tier : Tier} {l r t : Located} {tokens right rest : List Located} {x y : Except EvalError V}
  {op : Operator}

/-- An operand that no operator of the phrase follows is all of the phrase. -/
theorem reader_operand (joins : Phrase.Joins phrase tier operand)
    (h : m.reader ending n operand tokens = x >>= fun v => .ok (v, rest))
    (hstops : phrase.Stops rest) :
    m.reader ending n phrase tokens = x >>= fun v => .ok (v, rest) := by
  rw [reader_joined joins, h, bind_assoc]
  simp only [ok_bind, resume_of_stops hstops]

/-- A power without a sign in front is all of every phrase that stops behind it. -/
theorem reader_of_power (hphrase : phrase ≠ .atom)
    (hsign : ∀ t ∈ tokens.head?, t.token.sign? = none)
    (h : m.reader ending n .power tokens = x >>= fun v => .ok (v, rest))
    (hstops : phrase.Stops rest) :
    m.reader ending n phrase tokens = x >>= fun v => .ok (v, rest) := by
  have hsigned : m.reader ending n .signedFactor tokens = x >>= fun v => .ok (v, rest) :=
    (reader_unsigned hsign).trans h
  cases phrase with
  | expression =>
    exact reader_operand .expression
      (reader_operand .term hsigned (hstops.mono (List.subset_cons_self _ _))) hstops
  | term => exact reader_operand .term hsigned hstops
  | signedFactor => exact hsigned
  | power => exact h
  | atom => exact absurd rfl hphrase

theorem reader_of_atom (hphrase : phrase ≠ .atom)
    (hsign : ∀ t ∈ tokens.head?, t.token.sign? = none)
    (h : m.reader ending n .atom tokens = x >>= fun v => .ok (v, rest))
    (hstops : phrase.Stops rest) :
    m.reader ending n phrase tokens = x >>= fun v => .ok (v, rest) := by
  refine reader_of_power hphrase hsign (reader_base h (hstops.mono ?_)) hstops
  cases phrase <;> first | exact absurd rfl hphrase | decide

theorem reader_pair (joins : Phrase.Joins phrase tier operand)
    (ht : Operator.ofTier? tier t.token = some op)
    (hleft : m.reader ending n operand tokens = x >>= fun v => .ok (v, t :: right))
    (hright : m.reader ending n operand right = y >>= fun w => .ok (w, [])) :
    m.reader ending n phrase tokens =
      (x >>= fun v => y >>= fun w => m.combine op t.position v w) >>= fun u => .ok (u, []) := by
  rw [reader_joined joins, hleft]
  simp only [bind_assoc, ok_bind, resume_cons joins ht, hright,
    resume_of_stops (Phrase.clear_nil _)]

theorem reader_binary {k : Nat} (hk : k + op.opens = n + 1)
    (ht : Operator.ofToken? t.token = some op)
    (hsign : ∀ t ∈ tokens.head?, t.token.sign? = none)
    (hsignRight : ∀ t ∈ right.head?, t.token.sign? = none)
    (hleft : m.reader ending (n + 1) .atom tokens = x >>= fun v => .ok (v, t :: right))
    (hright : m.reader ending k .atom right = y >>= fun w => .ok (w, [])) :
    m.reader ending (n + 1) .expression tokens =
      (x >>= fun v => y >>= fun w => m.combine op t.position v w) >>= fun u => .ok (u, []) := by
  have hjoined {phrase operand : Phrase} {tier : Tier} (joins : Phrase.Joins phrase tier operand)
      (hoperand : operand ≠ .atom) (htier : op.tier = tier) (hk : k = n + 1) :
      m.reader ending (n + 1) phrase tokens =
        (x >>= fun v => y >>= fun w => m.combine op t.position v w) >>= fun u => .ok (u, []) := by
    subst hk
    have hof : Operator.ofTier? tier t.token = some op :=
      Option.filter_eq_some_iff.mpr ⟨ht, by simp [htier]⟩
    exact reader_pair joins hof
      (reader_of_atom hoperand hsign hleft (Phrase.clear_cons_of_ofTier? hof joins.tier_not_mem))
      (reader_of_atom hoperand hsignRight hright (Phrase.clear_nil _))
  cases op with
  | add | sub => exact hjoined .expression (by decide) rfl hk
  | mul | div | mod =>
    exact reader_operand .expression (hjoined .term (by decide) rfl hk) (Phrase.clear_nil _)
  | pow =>
    obtain rfl : k = n := Nat.succ.inj hk
    have hexponent : m.reader ending k .power right = y >>= fun w => .ok (w, []) :=
      reader_of_atom (by decide) hsignRight hright (Phrase.clear_nil _)
    refine reader_of_power (by decide) hsign ?_ (Phrase.clear_nil _)
    rw [reader_raised hleft (Operator.token_of_pow ht), hexponent]
    simp only [bind_assoc, ok_bind]

theorem reader_bracketed (hl : l.token = .symbol .lparen) (hr : r.token = .symbol .rparen)
    (hadvance : ending.advance rest = .ok rest)
    (h : m.reader ending n .expression tokens = x >>= fun v => .ok (v, r :: rest)) :
    m.reader ending (n + 1) .atom (l :: tokens) = x >>= fun v => .ok (m.group v, rest) := by
  rw [reader_group hl, h, bind_assoc]
  simp only [ok_bind, close, hr, if_true, hadvance]

theorem read_of_bracketed_error {e : EvalError} (hn : n + 1 = nestingLimit)
    (hl : l.token = .symbol .lparen) (h : m.reader ending n .expression tokens = .error e) :
    m.read ⟨l :: tokens, ending⟩ = .error e := by
  have hatom : m.reader ending (n + 1) .atom (l :: tokens) =
      (.error e : Except EvalError V) >>= fun v => .ok (v, []) := by
    rw [reader_group hl, h]
    rfl
  have hsign : ∀ t ∈ (l :: tokens).head?, t.token.sign? = none := by
    simp [hl, Token.sign?]
  rw [hn] at hatom
  exact read_of_reader (reader_of_atom (by decide) hsign hatom (Phrase.clear_nil _))

end Meaning

theorem Limited.exists_bind {V : Type} {allowed : Prop} {v : V} {rest : List Located}
    {outcome : Except EvalError (V × List Located)} (h : Limited allowed (.ok (v, rest)) outcome) :
    ∃ x, Limited allowed (.ok v) x ∧ outcome = x >>= fun v => .ok (v, rest) := by
  by_cases hallowed : allowed
  · exact ⟨.ok v, ⟨fun _ => rfl, absurd hallowed⟩, h.enough hallowed⟩
  · obtain ⟨position, houtcome⟩ := h.tooDeep hallowed
    exact ⟨.error ⟨position, .nestingTooDeep nestingLimit⟩,
      ⟨fun h => absurd h hallowed, fun _ => ⟨position, rfl⟩⟩, houtcome⟩

namespace FunctionTable

variable (functions : FunctionTable) (move : Nat → Nat) {ending ending' : Ending} {n : Nat}
  {r : Located} {tokens more behind : List Located} {v : Float} {e : EvalError}

/-- What is read up to the end is read up to a bracket that stands there instead. -/
theorem reader_closing {position : Nat} {allowed : Prop} (hr : r.token = .symbol .rparen)
    (h : Limited allowed (.ok (v, []))
      (functions.meaning.reader (.finish position) n .expression tokens)) :
    Limited allowed (.ok (v, r :: more)) (functions.meaning.reader ending' n .expression
      (tokens.map (.relocate move) ++ r :: more)) := by
  have hclosing : Meaning.EndsWith (·.cause = .endOfExpression) (fun e f => f = e.relocate move)
      (.finish position) ending' (r :: more) := .closing rfl rfl hr
  have hfollows := (functions.relocating move hclosing).keeps n .expression tokens _ rfl
  refine ⟨fun hallowed => ?_, fun hnot => ?_⟩
  · rw [h.enough hallowed] at hfollows
    obtain ⟨⟨w, rest⟩, hread, hvalue, hmoved⟩ := hfollows
    obtain rfl : w = v := hvalue
    obtain rfl : rest = r :: more := hmoved.tokens
    exact hread
  · obtain ⟨p, hread⟩ := h.tooDeep hnot
    rw [hread] at hfollows
    obtain hunfinished | ⟨f, hf, rfl⟩ := hfollows
    · cases hunfinished
    · exact ⟨_, hf⟩

/-- In brackets, tokens with a value are an atom with that value, wherever they stand. -/
theorem reader_bracketed {l : Located} {position : Nat} {allowed : Prop}
    (hl : l.token = .symbol .lparen) (hr : r.token = .symbol .rparen)
    (h : Limited allowed (.ok (v, []))
      (functions.meaning.reader (.finish position) n .expression tokens)) (stop : Nat) :
    ∃ x, Limited allowed (.ok v) x ∧
      functions.meaning.reader (.finish stop) (n + 1) .atom
        (l :: (tokens.map (.relocate move) ++ r :: more)) = x >>= fun v => .ok (v, more) := by
  obtain ⟨x, hx, hread⟩ := (functions.reader_closing move hr h).exists_bind
  exact ⟨x, hx, Meaning.reader_bracketed hl hr (Ending.advance_finish stop more) hread⟩

/-- An error in tokens is one in the same tokens at other places behind a bracket, whatever follows
them, unless they were all read or the levels run out before. -/
theorem read_bracketed_error {l : Located} (hl : l.token = .symbol .lparen)
    (hbehind : Meaning.EndsWith (·.cause = .endOfExpression) (fun e f => f = e.relocate move)
      ending ending' behind)
    (he : functions.meaning.reader ending nestingLimit .expression tokens = .error e)
    (hcause : e.cause ≠ .endOfExpression) :
    Curtails (functions.meaning.read ⟨l :: (tokens.map (.relocate move) ++ behind), ending'⟩)
      (.error (e.relocate move)) := by
  obtain ⟨n, hn⟩ : ∃ n, n + 1 = nestingLimit := ⟨127, rfl⟩
  have hcurtails : Curtails (functions.meaning.reader ending n .expression tokens)
      (functions.meaning.reader ending nestingLimit .expression tokens) :=
    Meaning.reader_curtails (hn ▸ n.le_succ) .expression tokens
  have hfollows := (functions.relocating move hbehind).keeps n .expression tokens _ rfl
  rw [he] at hcurtails
  generalize functions.meaning.reader ending n .expression tokens = outcome at hcurtails hfollows
  cases hcurtails with
  | same =>
    obtain hunfinished | ⟨f, hf, rfl⟩ := hfollows
    · exact absurd hunfinished hcause
    · rw [Meaning.read_of_bracketed_error hn hl hf]
      exact .same
  | tooDeep =>
    obtain hunfinished | ⟨f, hf, rfl⟩ := hfollows
    · cases hunfinished
    · rw [Meaning.read_of_bracketed_error hn hl hf]
      exact .tooDeep

end FunctionTable

end Reckoner

import Reckoner.Proofs.Grammar.Productions

/-!
# Two readings side by side

Productions look at what the tokens are and never at where they stand. So two readings of tokens
that correspond come to values or errors that correspond, whatever is built. Some errors of the
first reading may be let pass: then nothing is said about the second. Where the first tokens end, a
closing bracket may stand in the second, for both end an expression. Main statements: tracking the
single steps is tracking every production, and a simulation of them is one of the whole reading.
-/
namespace Reckoner

def Cause.inLexeme : Cause → Bool
  | .malformedNumber _ | .unknownCharacter _ => true
  | _ => false

/-- Both inputs end at their sources' ends, or both at faults that correspond. -/
inductive Ending.Alike (error : EvalError → EvalError → Prop) : Ending → Ending → Prop where
  | finish {p q : Nat} (h : error ⟨p, .endOfExpression⟩ ⟨q, .endOfExpression⟩) :
      Alike error (.finish p) (.finish q)
  | fault {e f : EvalError} (h : error e f) : Alike error (.fault e) (.fault f)

/-- The second outcome corresponds to the first, unless the first is an error that passes. -/
def Follows {α β : Type} (passes : EvalError → Prop) (error : EvalError → EvalError → Prop)
    (result : α → β → Prop) : Except EvalError α → Except EvalError β → Prop
  | .ok a, second => ∃ b, second = .ok b ∧ result a b
  | .error e, second => passes e ∨ ∃ f, second = .error f ∧ error e f

theorem Follows.bind {α β γ δ : Type} {passes : EvalError → Prop}
    {error : EvalError → EvalError → Prop} {result : α → β → Prop} {next : γ → δ → Prop}
    {first : Except EvalError α} {second : Except EvalError β}
    {f : α → Except EvalError γ} {g : β → Except EvalError δ}
    (h : Follows passes error result first second)
    (hnext : ∀ a b, result a b → Follows passes error next (f a) (g b)) :
    Follows passes error next (first >>= f) (second >>= g) := by
  cases first with
  | ok a =>
    obtain ⟨b, rfl, hab⟩ := h
    exact hnext a b hab
  | error e =>
    rcases h with hpasses | ⟨e', rfl, he⟩
    · exact .inl hpasses
    · exact .inr ⟨e', rfl, he⟩

/-- What is known of every value of the first reading may be used. -/
theorem Follows.and {α β : Type} {passes : EvalError → Prop}
    {error : EvalError → EvalError → Prop} {result : α → β → Prop} {property : α → Prop}
    {first : Except EvalError α} {second : Except EvalError β}
    (h : Follows passes error result first second)
    (hproperty : ∀ a, first = .ok a → property a) :
    Follows passes error (fun a b => result a b ∧ property a) first second := by
  cases first with
  | ok a =>
    obtain ⟨b, rfl, hab⟩ := h
    exact ⟨b, rfl, hab, hproperty a rfl⟩
  | error e => exact h

namespace Meaning

/-- What the second reading finds where the tokens of the first one end. -/
inductive EndsWith (passes : EvalError → Prop) (error : EvalError → EvalError → Prop)
    (ending ending' : Ending) : List Located → Prop where
  | passing {others : List Located} {e : EvalError} (h : ending = .fault e) (he : passes e) :
      EndsWith passes error ending ending' others
  | alike (h : Ending.Alike error ending ending') : EndsWith passes error ending ending' []
  /-- A bracket ends the expression. An operand or bracket is never wanted there. -/
  | closing {p : Nat} {r : Located} {more : List Located} (h : ending = .finish p)
      (hwanted : passes ⟨p, .endOfExpression⟩) (hr : r.token = .symbol .rparen) :
      EndsWith passes error ending ending' (r :: more)

/-- Which tokens and errors of two readings correspond, whatever is built. -/
structure Correspondence (ending ending' : Ending) where
  token : Located → Located → Prop
  tokens : List Located → List Located → Prop
  error : EvalError → EvalError → Prop
  passes : EvalError → Prop
  tokens_cons {t : Located} {rest others : List Located} (h : tokens (t :: rest) others) :
    ∃ t' rest', others = t' :: rest' ∧ token t t' ∧ tokens rest rest'
  tokens_end {others : List Located} (h : tokens [] others) :
    EndsWith passes error ending ending' others
  token_eq {t t' : Located} (h : token t t') : t'.token = t.token
  error_at {t t' : Located} (h : token t t') {cause : Cause} (hcause : cause.inLexeme = false) :
    error ⟨t.position, cause⟩ ⟨t'.position, cause⟩

/-- What corresponds in two readings, and that every single step keeps it so. A name may be unknown
to the first reading alone if that error passes. -/
structure Tracking {V W : Type} (m : Meaning V) (m' : Meaning W) (ending ending' : Ending)
    extends Correspondence ending ending' where
  value : V → W → Prop
  number (x : Float) : value (m.number x) (m'.number x)
  sign {v : V} {w : W} (sign : Sign) (h : value v w) : value (m.sign sign v) (m'.sign sign w)
  group {v : V} {w : W} (h : value v w) : value (m.group v) (m'.group w)
  call {t t' : Located} {name : String} (h : token t t') (ht : t.token = .identifier name) :
    (m.call? t.position name = none ∧
        (passes ⟨t.position, .unknownFunction name⟩ ∨ m'.call? t'.position name = none)) ∨
      ∃ f g, m.call? t.position name = some f ∧ m'.call? t'.position name = some g ∧
        ∀ v w, value v w → value (f v) (g w)
  combine {t t' : Located} {a b : V} {a' b' : W} (op : Operator) (h : token t t')
    (ha : value a a') (hb : value b b') :
    Follows passes error value (m.combine op t.position a b) (m'.combine op t'.position a' b')

structure Simulation {V W : Type} (m : Meaning V) (m' : Meaning W) (ending ending' : Ending)
    extends Tracking m m' ending ending' where
  tokens_nil {others : List Located} (h : tokens [] others) :
    (∃ e, ending = .fault e ∧ passes e) ∨ others = [] ∧ Ending.Alike error ending ending'
  tokens_end h := (tokens_nil h).elim (fun ⟨_, hfault, he⟩ => .passing hfault he)
    fun ⟨hnil, halike⟩ => hnil ▸ .alike halike

namespace Tracking

variable {V W : Type} {m : Meaning V} {m' : Meaning W} {ending ending' : Ending}
  (sim : Tracking m m' ending ending') {n : Nat} {phrase operand : Phrase} {tier : Tier}
  {t t' : Located} {rest rest' : List Located}

/-- What remains corresponds, and it is there to be moved on to. -/
structure Moved (rest rest' : List Located) : Prop where
  tokens : sim.tokens rest rest'
  ok : ending.advance rest = .ok rest

structure Read (first : V × List Located) (second : W × List Located) : Prop where
  value : sim.value first.1 second.1
  moved : sim.Moved first.2 second.2

def Keeps (first : Reader V) (second : Reader W) : Prop :=
  ∀ rest rest', sim.tokens rest rest' →
    Follows sim.passes sim.error sim.Read (first rest) (second rest')

theorem Moved.nil (h : sim.Moved [] rest') :
    rest' = [] ∨ ∃ r more, rest' = r :: more ∧ r.token = .symbol .rparen := by
  cases sim.tokens_end h.tokens with
  | passing hfault he =>
    subst hfault
    cases h.ok
  | alike halike => exact .inl rfl
  | closing hfinish hwanted hr => exact .inr ⟨_, _, rfl, hr⟩

theorem Moved.cons (h : sim.tokens (t :: rest) rest') : sim.Moved (t :: rest) rest' :=
  ⟨h, ending.advance_cons t rest⟩

theorem follows_error {α β : Type} {result : α → β → Prop} {cause : Cause} (h : sim.token t t')
    (hcause : cause.inLexeme = false) :
    Follows sim.passes sim.error result (.error ⟨t.position, cause⟩)
      (.error ⟨t'.position, cause⟩) :=
  .inr ⟨_, rfl, sim.error_at h hcause⟩

/-- Behind the last token there is an error for both or one that passes. -/
theorem follows_end {α β : Type} {result : α → β → Prop} (h : sim.tokens [] rest')
    {second : Except EvalError β} (hsecond : rest' = [] → second = .error ending'.error) :
    Follows sim.passes sim.error result (.error ending.error) second := by
  cases sim.tokens_end h with
  | passing hfault he =>
    subst hfault
    exact .inl he
  | alike halike =>
    refine .inr ⟨_, hsecond rfl, ?_⟩
    cases halike with
    | finish h => exact h
    | fault h => exact h
  | closing hfinish hwanted hr =>
    subst hfinish
    exact .inl hwanted

theorem advance (h : sim.tokens rest rest') :
    Follows sim.passes sim.error sim.Moved (ending.advance rest) (ending'.advance rest') := by
  cases rest with
  | nil =>
    cases sim.tokens_end h with
    | passing hfault he =>
      subst hfault
      exact .inl he
    | alike halike =>
      cases halike with
      | finish _ => exact ⟨[], rfl, h, rfl⟩
      | fault hfault => exact .inr ⟨_, rfl, hfault⟩
    | @closing p r more hfinish hwanted hr =>
      subst hfinish
      exact ⟨_, ending'.advance_cons r more, h, rfl⟩
  | cons t rest =>
    obtain ⟨t', rest', rfl, -, -⟩ := sim.tokens_cons h
    rw [Ending.advance_cons, Ending.advance_cons]
    exact ⟨_, rfl, .cons sim h⟩

theorem close (h : sim.tokens rest rest') :
    Follows sim.passes sim.error sim.Moved (Meaning.close ending rest)
      (Meaning.close ending' rest') := by
  cases rest with
  | nil => exact sim.follows_end h (by rintro rfl; rfl)
  | cons t rest =>
    obtain ⟨t', rest', rfl, ht, hrest⟩ := sim.tokens_cons h
    rw [Meaning.close, Meaning.close, sim.token_eq ht]
    split
    · exact sim.advance hrest
    · exact sim.follows_error ht rfl

theorem keeps_atom (inner : ∀ k < n, ∀ phrase,
      sim.Keeps (m.reader ending k phrase) (m'.reader ending' k phrase)) :
    sim.Keeps (m.reader ending n .atom) (m'.reader ending' n .atom) := by
  intro tokens others h
  cases tokens with
  | nil =>
    rw [reader_nil]
    exact sim.follows_end h (by rintro rfl; exact reader_nil n .atom)
  | cons t rest =>
    obtain ⟨t', rest', rfl, ht, hrest⟩ := sim.tokens_cons h
    have htoken := sim.token_eq ht
    cases hcase : t.token with
    | number x =>
      rw [reader_number hcase, reader_number (htoken.trans hcase)]
      exact (sim.advance hrest).bind fun a b hab => ⟨_, rfl, sim.number x, hab⟩
    | identifier name =>
      rcases sim.call ht hcase with ⟨hf, hpasses | hg⟩ | ⟨f, g, hf, hg, hfg⟩
      · rw [reader_unknown hcase hf]
        exact .inl hpasses
      · rw [reader_unknown hcase hf, reader_unknown (htoken.trans hcase) hg]
        exact sim.follows_error ht rfl
      · cases n with
        | zero =>
          rw [reader_call_zero hcase hf, reader_call_zero (htoken.trans hcase) hg]
          exact sim.follows_error ht rfl
        | succ k =>
          rw [reader_call hcase hf, reader_call (htoken.trans hcase) hg]
          exact (inner k k.lt_succ_self .atom _ _ hrest).bind fun p q hpq =>
            ⟨_, rfl, hfg _ _ hpq.value, hpq.moved⟩
    | symbol s =>
      by_cases hs : s = .lparen
      · subst hs
        cases n with
        | zero =>
          rw [reader_group_zero hcase, reader_group_zero (htoken.trans hcase)]
          exact sim.follows_error ht rfl
        | succ k =>
          rw [reader_group hcase, reader_group (htoken.trans hcase)]
          refine (inner k k.lt_succ_self .expression _ _ hrest).bind fun p q hpq => ?_
          exact (sim.close hpq.moved.tokens).bind fun a b hab =>
            ⟨_, rfl, sim.group hpq.value, hab⟩
      · have hatom : (Token.symbol s).startsAtom = false := by
          cases s <;> first | rfl | exact absurd rfl hs
        rw [reader_operandError (by simp [hcase, hatom]),
          reader_operandError (by simp [htoken, hcase, hatom]), Ending.operandError,
          Ending.operandError, htoken]
        split <;> exact sim.follows_error ht rfl

theorem keeps_power (inner : ∀ k < n, ∀ phrase,
      sim.Keeps (m.reader ending k phrase) (m'.reader ending' k phrase))
    (hatom : sim.Keeps (m.reader ending n .atom) (m'.reader ending' n .atom)) :
    sim.Keeps (m.reader ending n .power) (m'.reader ending' n .power) := by
  intro tokens others h
  refine (hatom _ _ h).bind fun p q hpq => ?_
  obtain ⟨base, rest⟩ := p
  obtain ⟨base', rest'⟩ := q
  obtain ⟨hbase, hmoved⟩ := hpq
  cases rest with
  | nil =>
    rcases hmoved.nil with rfl | ⟨r, more, rfl, hr⟩
    · exact ⟨_, rfl, hbase, hmoved⟩
    · simp only [hr]
      exact ⟨_, rfl, hbase, hmoved⟩
  | cons t rest =>
    obtain ⟨t', rest', rfl, ht, hrest⟩ := sim.tokens_cons hmoved.tokens
    by_cases hcaret : t.token = .symbol .caret
    · simp only [if_pos hcaret, if_pos ((sim.token_eq ht).trans hcaret)]
      refine (sim.advance hrest).bind fun a b hab => ?_
      cases n with
      | zero => exact sim.follows_error ht rfl
      | succ k =>
        refine (inner k k.lt_succ_self .power _ _ hab.tokens).bind fun p q hpq => ?_
        exact (sim.combine .pow ht hbase hpq.value).bind fun v w hvw => ⟨_, rfl, hvw, hpq.moved⟩
    · have hcaret' : t'.token ≠ .symbol .caret := (sim.token_eq ht).symm ▸ hcaret
      simp only [if_neg hcaret, if_neg hcaret']
      exact ⟨_, rfl, hbase, hmoved⟩

theorem keeps_signedFactor
    (hpower : sim.Keeps (m.reader ending n .power) (m'.reader ending' n .power)) :
    sim.Keeps (m.reader ending n .signedFactor) (m'.reader ending' n .signedFactor) := by
  intro tokens others h
  cases tokens with
  | nil =>
    rw [reader_nil]
    exact sim.follows_end h (by rintro rfl; exact reader_nil n .signedFactor)
  | cons t rest =>
    obtain ⟨t', rest', rfl, ht, hrest⟩ := sim.tokens_cons h
    have htoken := sim.token_eq ht
    cases hsign : t.token.sign? with
    | none =>
      rw [reader_unsigned (by simpa using hsign), reader_unsigned (by simpa [htoken] using hsign)]
      exact hpower _ _ h
    | some sign =>
      rw [reader_signed hsign, reader_signed (htoken ▸ hsign)]
      exact (hpower _ _ hrest).bind fun p q hpq => ⟨_, rfl, sim.sign sign hpq.value, hpq.moved⟩

theorem follows_resume (joins : Phrase.Joins phrase tier operand)
    (hoperand : sim.Keeps (m.reader ending n operand) (m'.reader ending' n operand))
    (rest : List Located) : ∀ rest' v w, sim.value v w → sim.Moved rest rest' →
      Follows sim.passes sim.error sim.Read (m.resume ending n phrase v rest)
        (m'.resume ending' n phrase w rest') := by
  induction hlength : rest.length using Nat.strongRecOn generalizing rest with
  | _ length ih =>
    intro rest' v w hvw hmoved
    cases rest with
    | nil =>
      have hstops : phrase.Stops rest' := by
        rcases hmoved.nil with rfl | ⟨r, more, rfl, hr⟩
        · exact Phrase.clear_nil _
        · simp [Phrase.Stops, Phrase.Clear, hr, Operator.ofToken?]
      rw [resume_of_stops (Phrase.clear_nil _), resume_of_stops hstops]
      exact ⟨_, rfl, hvw, hmoved⟩
    | cons t rest =>
      obtain ⟨t', rest', rfl, ht, hrest⟩ := sim.tokens_cons hmoved.tokens
      have htoken := sim.token_eq ht
      cases hop : Operator.ofTier? tier t.token with
      | none =>
        rw [resume_joined joins, resume_joined joins, chain, chain, htoken, hop]
        exact ⟨_, rfl, hvw, hmoved⟩
      | some op =>
        have hshorter : ∀ p, m.reader ending n operand rest = .ok p → p.2.length < length := by
          intro p hp
          rw [← hlength, List.length_cons]
          exact Nat.lt_succ_of_lt (reader_length_lt n operand _ _ _ hp)
        rw [resume_cons joins hop, resume_cons joins (htoken ▸ hop)]
        refine ((hoperand _ _ hrest).and hshorter).bind fun p q hpq => ?_
        exact (sim.combine op ht hvw hpq.1.value).bind fun v w hvw =>
          ih _ hpq.2 p.2 rfl q.2 v w hvw hpq.1.moved

/-- Every production of the second reading follows that of the first. -/
theorem keeps (n : Nat) (phrase : Phrase) :
    sim.Keeps (m.reader ending n phrase) (m'.reader ending' n phrase) := by
  induction n, phrase using Phrase.level_induction with
  | atom n inner => exact sim.keeps_atom inner
  | power n inner hatom => exact sim.keeps_power inner hatom
  | signedFactor n hpower => exact sim.keeps_signedFactor hpower
  | joined n phrase tier operand joins hoperand =>
    intro rest rest' h
    rw [reader_joined joins, reader_joined joins]
    exact (hoperand _ _ h).bind fun p q hpq =>
      sim.follows_resume joins hoperand p.2 q.2 p.1 q.1 hpq.value hpq.moved

/-- Reading a whole input follows reading a corresponding one that ends with it. -/
theorem follows_read_of {tokens others : List Located} (h : sim.tokens tokens others)
    (hend : ∀ rest', sim.Moved [] rest' → rest' = []) :
    Follows sim.passes sim.error sim.value (m.read ⟨tokens, ending⟩)
      (m'.read ⟨others, ending'⟩) := by
  refine (sim.keeps nestingLimit .expression _ _ h).bind fun p q hpq => ?_
  obtain ⟨v, rest⟩ := p
  obtain ⟨w, rest'⟩ := q
  cases rest with
  | nil =>
    obtain rfl := hend _ hpq.moved
    exact ⟨w, rfl, hpq.value⟩
  | cons t rest =>
    obtain ⟨t', rest', rfl, ht, -⟩ := sim.tokens_cons hpq.moved.tokens
    simp only [expectEnd, sim.token_eq ht]
    split <;> exact sim.follows_error ht rfl

end Tracking

theorem Simulation.follows_read {V W : Type} {m : Meaning V} {m' : Meaning W}
    {ending ending' : Ending} (sim : Simulation m m' ending ending') {tokens others : List Located}
    (h : sim.tokens tokens others) :
    Follows sim.passes sim.error sim.value (m.read ⟨tokens, ending⟩)
      (m'.read ⟨others, ending'⟩) := by
  refine sim.follows_read_of h fun rest' hmoved => ?_
  rcases sim.tokens_nil hmoved.tokens with ⟨e, rfl, -⟩ | ⟨hnil, -⟩
  · cases hmoved.ok
  · exact hnil

end Meaning

end Reckoner

import Reckoner.Proofs.Grammar.Phrase

/-!
# The productions with a counter

The productions count the levels that may still be opened down along their recursion. Here they are
once more as parsers of one state: they count the open levels up, in a counter that all of them
share, and keep a record of what they do. The seven call one another, and a budget says how many
calls may be active at once.
-/
namespace Reckoner.Counter

/-- The productions, and the bodies of the two that run inside a level of their own. -/
inductive Production where
  | expression
  | term
  | signedFactor
  | power
  | atom
  | grouping
  | functionCall
deriving DecidableEq

def production : Phrase → Production
  | .expression => .expression
  | .term => .term
  | .signedFactor => .signedFactor
  | .power => .power
  | .atom => .atom

/-- The tokens that are not read yet, and how many levels the counter says are open. -/
structure Place where
  rest : List Located
  depth : Int

inductive Event where
  | fetch
  | counter (depth : Int)
  | call (production : Production) (place : Place)
  /-- A production that was called at one place has a value at another. -/
  | value (production : Production) (before after : Place)

structure State extends Place where
  log : List Event

/-- A production changes the state also if it fails. -/
abbrev Parser := EStateM EvalError State

def State.record (s : State) (e : Event) : State := { s with log := s.log ++ [e] }

def State.move (s : State) (step : Int) : State :=
  { s with depth := s.depth + step }.record (.counter (s.depth + step))

variable {V : Type}

/-- What can be called: a production of a phrase, or one that runs inside a level of its own. -/
inductive Call (V : Type) where
  | phrase (phrase : Phrase)
  | grouping
  | functionCall (apply : V → V)

def Call.production : Call V → Production
  | .phrase p => Counter.production p
  | .grouping => .grouping
  | .functionCall _ => .functionCall

/-- The token that opens a level is not read yet when the production that runs in it is called. -/
def Call.Starts : Call V → List Located → Prop
  | .phrase _, _ => True
  | _, rest => rest ≠ []

def call (production : Production) (body : Parser V) : Parser V := do
  let before := (← get).toPlace
  modify (·.record (.call production before))
  let value ← body
  modify fun s => s.record (.value production before s.toPlace)
  return value

/-- Runs a production one level deeper, unless all levels are open. -/
def nested (position : Nat) (production : Parser V) : Parser V := fun s =>
  if nestingLimit ≤ s.depth then .error ⟨position, .nestingTooDeep nestingLimit⟩ s
  else match production (s.move 1) with
    | .ok value s => .ok value (s.move (-1))
    | .error e s => .error e (s.move (-1))

variable (m : Meaning V) (ending : Ending)

def advance : Parser Unit := do
  modify (·.record .fetch)
  let rest ← ofExcept (ending.advance (← get).rest.tail)
  modify fun s => { s with rest }

variable (callee : Call V → Parser V)

def grouping : Parser V := do
  advance ending
  let value ← callee (.phrase .expression)
  match (← get).rest with
  | [] => throw ending.error
  | t :: _ =>
    if t.token = .symbol .rparen then do
      advance ending
      return m.group value
    else throw ⟨t.position, .missingBracket⟩

def functionCall (apply : V → V) : Parser V := do
  advance ending
  let argument ← callee (.phrase .atom)
  return apply argument

def atom : Parser V := do
  match (← get).rest with
  | [] => throw ending.error
  | t :: _ =>
    match t.token with
    | .number value => do
      advance ending
      return m.number value
    | .identifier name =>
      match m.call? t.position name with
      | none => throw ⟨t.position, .unknownFunction name⟩
      | some apply => nested t.position (callee (.functionCall apply))
    | .symbol .lparen => nested t.position (callee .grouping)
    | .symbol .rparen => throw ⟨t.position, .missingBracket⟩
    | token => throw ⟨t.position, .notANumber token.display⟩

def power : Parser V := do
  let base ← callee (.phrase .atom)
  match (← get).rest with
  | [] => return base
  | t :: _ =>
    if t.token = .symbol .caret then do
      advance ending
      let exponent ← nested t.position (callee (.phrase .power))
      ofExcept (m.combine .pow t.position base exponent)
    else return base

def signedFactor : Parser V := do
  match (← get).rest with
  | [] => callee (.phrase .power)
  | t :: _ =>
    match t.token.sign? with
    | some sign => do
      advance ending
      let value ← callee (.phrase .power)
      return m.sign sign value
    | none => callee (.phrase .power)

/-- Joins further operands to `left`; a round uses up tokens, which are the clock. -/
def chain (tier : Tier) (operand : Parser V) : (clock : List Located) → V → Parser V
  | [], left => return left
  | _ :: clock, left => do
    match (← get).rest with
    | [] => return left
    | t :: _ =>
      match Operator.ofTier? tier t.token with
      | none => return left
      | some op => do
        advance ending
        let right ← operand
        let value ← ofExcept (m.combine op t.position left right)
        chain tier operand clock value

def joined (tier : Tier) (operand : Parser V) : Parser V := do
  let left ← operand
  chain m ending tier operand (← get).rest left

def body : Call V → Parser V
  | .phrase .expression => joined m ending .sum (callee (.phrase .term))
  | .phrase .term => joined m ending .product (callee (.phrase .signedFactor))
  | .phrase .signedFactor => signedFactor m ending callee
  | .phrase .power => power m ending callee
  | .phrase .atom => atom m ending callee
  | .grouping => grouping m ending callee
  | .functionCall apply => functionCall ending callee apply

variable (spent : Call V → Parser V)

/-- The productions with a budget of calls; `spent` is what stands in for them when it is spent. -/
def perform : Nat → Call V → Parser V
  | 0, c => spent c
  | budget + 1, c => call c.production (body m ending (perform budget) c)

/-- An expression with nothing behind it. -/
def whole (budget : Nat) : Parser V := do
  let value ← perform m ending spent budget (.phrase .expression)
  ofExcept (Meaning.expectEnd (← get).rest)
  return value

/-- In front of the tokens, of which the first was asked for. -/
def State.start (tokens : List Located) : State := ⟨⟨tokens, 0⟩, [.fetch]⟩

/-- Reads the whole input: what is read, and the state at the end. -/
def read (budget : Nat) (input : Input) : Except EvalError V × State :=
  match input.openingFault? with
  | some e => (.error e, .start input.tokens)
  | none =>
    match (whole m input.ending spent budget).run (.start input.tokens) with
    | .ok value s => (.ok value, s)
    | .error e s => (.error e, s)

/-- What a parser read off the front of the tokens, and the tokens that it left. -/
def outcome : EStateM.Result EvalError State V → Except EvalError (V × List Located)
  | .ok value s => .ok (value, s.rest)
  | .error e _ => .error e

section Runs

variable {m ending} {s s' : State} {p : Parser V} {W : Type} {g : V → Parser W} {v : V} {w : W}
  {e : EvalError} {position : Nat}

theorem bind_of_ok (h : p.run s = .ok v s') : (p >>= g).run s = (g v).run s' := by
  rw [EStateM.run_bind, h]

theorem bind_of_error (h : p.run s = .error e s') : (p >>= g).run s = .error e s' := by
  rw [EStateM.run_bind, h]

theorem run_bind_eq_ok : (p >>= g).run s = .ok w s' ↔
    ∃ v s₁, p.run s = .ok v s₁ ∧ (g v).run s₁ = .ok w s' := by
  rw [EStateM.run_bind]
  cases p.run s <;> simp [and_assoc]

theorem run_get_bind (g : State → Parser V) (s : State) : (get >>= g).run s = (g s).run s := rfl

theorem run_advance (ending : Ending) (s : State) :
    (advance ending).run s = match ending.advance s.rest.tail with
      | .ok rest => .ok () { s.record .fetch with rest }
      | .error e => .error e (s.record .fetch) := by
  change EStateM.run (MonadExcept.ofExcept (ending.advance s.rest.tail) >>= _)
    (s.record .fetch) = _
  cases ending.advance s.rest.tail <;> rfl

theorem run_call (production : Production) (p : Parser V) (s : State) :
    (call production p).run s = match p.run (s.record (.call production s.toPlace)) with
      | .ok v s' => .ok v (s'.record (.value production s.toPlace s'.toPlace))
      | .error e s' => .error e s' := by
  change EStateM.run (p >>= fun v => modify _ >>= fun _ => pure v)
    (s.record (.call production s.toPlace)) = _
  rw [EStateM.run_bind]
  cases p.run (s.record (.call production s.toPlace)) <;> rfl

theorem nested_of_full (h : nestingLimit ≤ s.depth) :
    (nested position p).run s = .error ⟨position, .nestingTooDeep nestingLimit⟩ s :=
  if_pos h

theorem nested_of_ok (hlt : s.depth < nestingLimit) (h : p.run (s.move 1) = .ok v s') :
    (nested position p).run s = .ok v (s'.move (-1)) := by
  rw [EStateM.run] at h
  rw [EStateM.run, nested, if_neg (Int.not_le.mpr hlt), h]

theorem nested_of_error (hlt : s.depth < nestingLimit) (h : p.run (s.move 1) = .error e s') :
    (nested position p).run s = .error e (s'.move (-1)) := by
  rw [EStateM.run] at h
  rw [EStateM.run, nested, if_neg (Int.not_le.mpr hlt), h]

end Runs

end Reckoner.Counter

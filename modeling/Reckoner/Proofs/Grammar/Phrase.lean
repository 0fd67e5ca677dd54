import Reckoner.Expr

/-!
# Phrases of the grammar

A token list derives a phrase as a syntax tree:

    expression    := term (("+" | "-") term)*
    term          := signed factor (("*" | "/" | "%") signed factor)*
    signed factor := ("+" | "-")? power
    power         := atom ("^" power)?
    atom          := NUMBER | "(" expression ")" | IDENTIFIER atom

The repetitions are unfolded from the left, so that the operators of one tier are grouped to the
left. Nothing here reads tokens; levels and known names are conditions on a derivation.
-/
namespace Reckoner

inductive Phrase where
  | expression
  | term
  | signedFactor
  | power
  | atom
deriving DecidableEq

namespace Phrase

/-- `Joins phrase tier operand`: such phrases are operands joined by operators of the tier. -/
inductive Joins : Phrase → Tier → Phrase → Prop where
  | expression : Joins .expression .sum .term
  | term : Joins .term .product .signedFactor

/-- The tiers of the operators that would carry a phrase on. -/
def tiers : Phrase → List Tier
  | expression => [.sum, .product, .power]
  | term => [.product, .power]
  | signedFactor | power => [.power]
  | atom => []

/-- The tiers that bind tighter than the phrase's own operators. -/
def tighter : Phrase → List Tier
  | expression => [.product, .power]
  | term => [.power]
  | signedFactor | power => [.power]
  | atom => []

theorem tighter_subset (phrase : Phrase) : phrase.tighter ⊆ phrase.tiers := by
  cases phrase <;> decide

theorem Joins.tiers_eq {phrase operand : Phrase} {tier : Tier} (h : Joins phrase tier operand) :
    phrase.tiers = tier :: operand.tiers := by
  cases h <;> rfl

theorem Joins.tighter_eq {phrase operand : Phrase} {tier : Tier} (h : Joins phrase tier operand) :
    phrase.tighter = operand.tiers := by
  cases h <;> rfl

theorem Joins.tier_not_mem {phrase operand : Phrase} {tier : Tier}
    (h : Joins phrase tier operand) : tier ∉ operand.tiers := by
  cases h <;> decide

/-- No token at the head of `rest` is an operator of one of the tiers. -/
def Clear (tiers : List Tier) (rest : List Located) : Prop :=
  ∀ t ∈ rest.head?, ∀ op ∈ Operator.ofToken? t.token, op.tier ∉ tiers

/-- The phrase is not carried on into `rest`. -/
abbrev Stops (phrase : Phrase) (rest : List Located) : Prop := Clear phrase.tiers rest

theorem clear_nil (tiers : List Tier) : Clear tiers [] := by
  simp [Clear]

theorem Clear.mono {few many : List Tier} {rest : List Located} (h : Clear many rest)
    (hsub : few ⊆ many) : Clear few rest :=
  fun t ht op hop hmem => h t ht op hop (hsub hmem)

theorem Clear.congr {tiers : List Tier} {rest other : List Located} (h : Clear tiers rest)
    (hhead : other.head? = rest.head?) : Clear tiers other := by
  unfold Clear
  rwa [hhead]

theorem clear_cons_of_ofTier? {tiers : List Tier} {tier : Tier} {op : Operator} {t : Located}
    {rest : List Located} (h : Operator.ofTier? tier t.token = some op) (hmem : tier ∉ tiers) :
    Clear tiers (t :: rest) := by
  obtain ⟨hop, htier⟩ := Option.filter_eq_some_iff.mp h
  intro t' ht' op' hop'
  obtain rfl : t = t' := by simpa using ht'
  obtain rfl : op = op' := by simpa [hop] using hop'
  simpa [of_decide_eq_true htier] using hmem

theorem clear_cons_iff {tier : Tier} {tiers : List Tier} {rest : List Located} :
    Clear (tier :: tiers) rest ↔
      Clear tiers rest ∧ ∀ t ∈ rest.head?, Operator.ofTier? tier t.token = none := by
  constructor
  · intro h
    refine ⟨h.mono (List.subset_cons_self _ _), fun t ht => ?_⟩
    rw [Operator.ofTier?, Option.filter_eq_none_iff]
    intro op hop hdec
    exact h t ht op hop (by simp [of_decide_eq_true hdec])
  · rintro ⟨h, hnone⟩ t ht op hop hmem
    rcases List.mem_cons.mp hmem with htier | htier
    · have := Option.filter_eq_none_iff.mp (hnone t ht) op hop
      simp [htier] at this
    · exact h t ht op hop htier

theorem stops_power {t : Located} {rest : List Located} (h : t.token ≠ .symbol .caret) :
    Stops .power (t :: rest) := by
  rintro t' ht' op hop hmem
  obtain rfl : t = t' := by simpa using ht'
  have htier : op.tier = .power := by simpa [tiers] using hmem
  cases htoken : t.token with
  | symbol s => cases s <;> simp_all [Operator.ofToken?] <;> subst hop <;> cases htier
  | number value => simp [htoken, Operator.ofToken?] at hop
  | identifier name => simp [htoken, Operator.ofToken?] at hop

/-- A statement about all phrases under every number of levels that may still be opened. For a
phrase it may be used for every phrase with fewer levels, and for the phrase that it starts with. -/
theorem level_induction {P : Nat → Phrase → Prop}
    (atom : ∀ n, (∀ k < n, ∀ phrase, P k phrase) → P n .atom)
    (power : ∀ n, (∀ k < n, ∀ phrase, P k phrase) → P n .atom → P n .power)
    (signedFactor : ∀ n, P n .power → P n .signedFactor)
    (joined : ∀ n phrase tier operand, Joins phrase tier operand → P n operand → P n phrase)
    (n : Nat) (phrase : Phrase) : P n phrase := by
  induction n using Nat.strongRecOn generalizing phrase with
  | _ n inner =>
    have hatom := atom n inner
    have hpower := power n inner hatom
    have hsigned := signedFactor n hpower
    have hterm := joined n _ _ _ .term hsigned
    cases phrase with
    | expression => exact joined n _ _ _ .expression hterm
    | term => exact hterm
    | signedFactor => exact hsigned
    | power => exact hpower
    | atom => exact hatom

end Phrase

/-- `Derives phrase tokens tree`: the tokens are such a phrase, written as the tree says. -/
inductive Derives : Phrase → List Located → Expr → Prop where
  | number {t : Located} {value : Float} (h : t.token = .number value) :
      Derives .atom [t] (.number value)
  | group {l r : Located} {tokens : List Located} {e : Expr} (hl : l.token = .symbol .lparen)
      (inside : Derives .expression tokens e) (hr : r.token = .symbol .rparen) :
      Derives .atom (l :: (tokens ++ [r])) (.group e)
  | call {t : Located} {name : String} {tokens : List Located} {e : Expr}
      (h : t.token = .identifier name) (argument : Derives .atom tokens e) :
      Derives .atom (t :: tokens) (.call t.position name e)
  | base {tokens : List Located} {e : Expr} (h : Derives .atom tokens e) : Derives .power tokens e
  | raised {t : Located} {left right : List Located} {b e : Expr} (base : Derives .atom left b)
      (h : t.token = .symbol .caret) (exponent : Derives .power right e) :
      Derives .power (left ++ t :: right) (.binary .pow t.position b e)
  | unsigned {tokens : List Located} {e : Expr} (h : Derives .power tokens e) :
      Derives .signedFactor tokens e
  | signed {t : Located} {sign : Sign} {tokens : List Located} {e : Expr}
      (h : t.token.sign? = some sign) (power : Derives .power tokens e) :
      Derives .signedFactor (t :: tokens) (.signed sign e)
  | operand {phrase operand : Phrase} {tier : Tier} {tokens : List Located} {e : Expr}
      (joins : Phrase.Joins phrase tier operand) (h : Derives operand tokens e) :
      Derives phrase tokens e
  | joined {phrase operand : Phrase} {tier : Tier} {op : Operator} {t : Located}
      {lefts rights : List Located} {l r : Expr} (joins : Phrase.Joins phrase tier operand)
      (left : Derives phrase lefts l) (h : Operator.ofTier? tier t.token = some op)
      (right : Derives operand rights r) :
      Derives phrase (lefts ++ t :: rights) (.binary op t.position l r)

def NamesKnown (known : String → Bool) (tokens : List Located) : Prop :=
  ∀ t ∈ tokens, ∀ name, t.token = .identifier name → known name = true

theorem namesKnown_nil (known : String → Bool) : NamesKnown known [] := by
  simp [NamesKnown]

@[simp] theorem namesKnown_cons {known : String → Bool} {t : Located} {tokens : List Located} :
    NamesKnown known (t :: tokens) ↔
      (∀ name, t.token = .identifier name → known name = true) ∧ NamesKnown known tokens := by
  simp [NamesKnown]

@[simp] theorem namesKnown_append {known : String → Bool} {left right : List Located} :
    NamesKnown known (left ++ right) ↔ NamesKnown known left ∧ NamesKnown known right := by
  simp [NamesKnown, or_imp, forall_and]

theorem Phrase.Joins.op_ne_pow {phrase operand : Phrase} {tier : Tier} {op : Operator}
    {token : Token} (joins : Joins phrase tier operand)
    (h : Operator.ofTier? tier token = some op) : op ≠ .pow := by
  rintro rfl
  have htier := of_decide_eq_true (Option.filter_eq_some_iff.mp h).2
  cases joins <;> simp [Operator.tier] at htier

theorem Expr.levels_binary {op : Operator} {position : Nat} {l r : Expr} (h : op ≠ .pow) :
    (Expr.binary op position l r).levels = max l.levels r.levels := by
  cases op <;> simp_all [Expr.levels]

theorem Derives.levels_le_length {phrase : Phrase} {tokens : List Located} {tree : Expr}
    (h : Derives phrase tokens tree) : tree.levels ≤ tokens.length := by
  induction h with
  | number h => simp [Expr.levels]
  | group hl inside hr ih =>
    simp only [Expr.levels, List.length_cons, List.length_append, List.length_nil]
    omega
  | call h argument ih => simpa [Expr.levels] using ih
  | base h ih => exact ih
  | raised base h exponent ihb ihe =>
    simp only [Expr.levels, List.length_append, List.length_cons]
    omega
  | unsigned h ih => exact ih
  | signed h power ih => exact Nat.le_succ_of_le ih
  | operand joins h ih => exact ih
  | joined joins left h right ihl ihr =>
    rw [Expr.levels_binary (joins.op_ne_pow h), List.length_append, List.length_cons]
    omega

theorem Derives.head_sign {phrase : Phrase} {tokens : List Located} {tree : Expr}
    (h : Derives phrase tokens tree) (hphrase : phrase = .power ∨ phrase = .atom) :
    ∃ t rest, tokens = t :: rest ∧ t.token.sign? = none := by
  induction h with
  | number h => exact ⟨_, _, rfl, by simp [h, Token.sign?]⟩
  | group hl inside hr ih => exact ⟨_, _, rfl, by simp [hl, Token.sign?]⟩
  | call h argument ih => exact ⟨_, _, rfl, by simp [h, Token.sign?]⟩
  | base h ih => exact ih (.inr rfl)
  | raised base h exponent ihb ihe =>
    obtain ⟨t, rest, rfl, hsign⟩ := ihb (.inr rfl)
    exact ⟨t, rest ++ _ :: _, rfl, hsign⟩
  | unsigned h ih => simp at hphrase
  | signed h power ih => simp at hphrase
  | operand joins h ih => cases joins <;> simp at hphrase
  | joined joins left h right ihl ihr => cases joins <;> simp at hphrase

/-- A derivation that opens at most `n` levels at once and calls known functions only. -/
structure Admits (known : String → Bool) (n : Nat) (phrase : Phrase) (tokens : List Located)
    (tree : Expr) : Prop where
  derives : Derives phrase tokens tree
  levels : tree.levels ≤ n
  names : NamesKnown known tokens

namespace Admits

variable {known : String → Bool} {n : Nat} {phrase inner : Phrase} {tier : Tier}
  {tokens lefts rights : List Located} {l r t : Located} {e left right : Expr}

theorem of_derives (h : Derives phrase tokens e) (hn : tokens.length ≤ n) :
    Admits (fun _ => true) n phrase tokens e :=
  ⟨h, Nat.le_trans h.levels_le_length hn, by simp [NamesKnown]⟩

theorem mono {wider : String → Bool} {m : Nat} (h : Admits known n phrase tokens e)
    (hknown : ∀ name, known name = true → wider name = true) (hn : n ≤ m) :
    Admits wider m phrase tokens e :=
  ⟨h.derives, Nat.le_trans h.levels hn,
    fun t ht name hname => hknown name (h.names t ht name hname)⟩

theorem number {value : Float} (h : t.token = .number value) :
    Admits known n .atom [t] (.number value) :=
  ⟨.number h, Nat.zero_le n, by simp [h, namesKnown_nil]⟩

theorem group (hl : l.token = .symbol .lparen) (h : Admits known n .expression tokens e)
    (hr : r.token = .symbol .rparen) :
    Admits known (n + 1) .atom (l :: (tokens ++ [r])) (.group e) :=
  ⟨.group hl h.derives hr, Nat.succ_le_succ h.levels, by simp [hl, hr, h.names, namesKnown_nil]⟩

theorem call {name : String} (ht : t.token = .identifier name) (hname : known name = true)
    (h : Admits known n .atom tokens e) :
    Admits known (n + 1) .atom (t :: tokens) (.call t.position name e) :=
  ⟨.call ht h.derives, Nat.succ_le_succ h.levels, by simp [ht, hname, h.names]⟩

theorem base (h : Admits known n .atom tokens e) : Admits known n .power tokens e :=
  ⟨.base h.derives, h.levels, h.names⟩

theorem raised (hl : Admits known (n + 1) .atom lefts left) (ht : t.token = .symbol .caret)
    (hr : Admits known n .power rights right) :
    Admits known (n + 1) .power (lefts ++ t :: rights) (.binary .pow t.position left right) :=
  ⟨.raised hl.derives ht hr.derives,
    Nat.max_le.mpr ⟨hl.levels, Nat.succ_le_succ hr.levels⟩, by simp [ht, hl.names, hr.names]⟩

theorem unsigned (h : Admits known n .power tokens e) : Admits known n .signedFactor tokens e :=
  ⟨.unsigned h.derives, h.levels, h.names⟩

theorem signed {sign : Sign} (ht : t.token.sign? = some sign) (h : Admits known n .power tokens e) :
    Admits known n .signedFactor (t :: tokens) (.signed sign e) :=
  ⟨.signed ht h.derives, h.levels, by
    refine namesKnown_cons.mpr ⟨fun name hname => ?_, h.names⟩
    simp [hname, Token.sign?] at ht⟩

theorem operand (joins : Phrase.Joins phrase tier inner) (h : Admits known n inner tokens e) :
    Admits known n phrase tokens e :=
  ⟨.operand joins h.derives, h.levels, h.names⟩

theorem joined {op : Operator} (joins : Phrase.Joins phrase tier inner)
    (hl : Admits known n phrase lefts left) (ht : Operator.ofTier? tier t.token = some op)
    (hr : Admits known n inner rights right) :
    Admits known n phrase (lefts ++ t :: rights) (.binary op t.position left right) :=
  ⟨.joined joins hl.derives ht hr.derives, by
    rw [Expr.levels_binary (joins.op_ne_pow ht)]
    exact Nat.max_le.mpr ⟨hl.levels, hr.levels⟩, by
    refine namesKnown_append.mpr ⟨hl.names, namesKnown_cons.mpr ⟨fun name hname => ?_, hr.names⟩⟩
    simp [hname, Operator.ofTier?, Operator.ofToken?] at ht⟩

end Admits

end Reckoner

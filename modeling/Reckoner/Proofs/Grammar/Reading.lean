import Reckoner.Proofs.Grammar.Productions

/-!
# What the productions read

Every production is described by its grammar, whatever is built. On tokens that start with a phrase
it builds what the phrase's tree denotes and leaves the tokens behind it. On tokens that fail to, it
fails for the same reason, unless an operator in front of that place refuses its operands before.
-/
namespace Reckoner.Meaning

section Denotation

variable {V : Type} (m : Meaning V)

/-- What a tree stands for: operands before operators and from left to right. -/
def denote : Expr → Except EvalError V
  | .number value => .ok (m.number value)
  | .signed sign operand => return m.sign sign (← denote operand)
  | .group inside => return m.group (← denote inside)
  | .call position name argument =>
    match m.call? position name with
    | some apply => return apply (← denote argument)
    | none => .error ⟨position, .unknownFunction name⟩
  | .binary op position left right => do
    let a ← denote left
    let b ← denote right
    m.combine op position a b

/-- The functions are the known names. -/
def Knows (known : String → Bool) : Prop :=
  ∀ position name, (m.call? position name).isSome = known name

end Denotation

variable {V : Type} {m : Meaning V} {ending : Ending} {n : Nat} {phrase operand : Phrase}
  {tier : Tier} {t : Located} {tokens rest : List Located}
variable {known : String → Bool} {used pre : List Located} {tree : Expr} {e : EvalError}

theorem Knows.call (hm : m.Knows known) {name : String} (hname : known name = true)
    (position : Nat) : ∃ apply, m.call? position name = some apply :=
  Option.isSome_iff_exists.mp ((hm position name).trans hname)

/-- The tokens are read off the front of any others as what the tree denotes, and the production
goes on with the phrase's own operators. -/
def ReadsAs (m : Meaning V) (ending : Ending) (known : String → Bool) (phrase : Phrase)
    (used : List Located) (tree : Expr) : Prop :=
  ∀ n rest, tree.levels ≤ n → NamesKnown known used → Phrase.Clear phrase.tighter rest →
    ending.advance rest = .ok rest → m.reader ending n phrase (used ++ rest) =
      m.denote tree >>= fun v => m.resume ending n phrase v rest

section Derivations

variable {l r : Located} {inside argument b x left right : Expr}
  {lefts rights : List Located}

theorem ReadsAs.number {value : Float} (h : t.token = .number value) :
    m.ReadsAs ending known .atom [t] (.number value) := by
  intro n rest hlevels hnames hclear hadvance
  rw [List.singleton_append, reader_number h, hadvance]
  rfl

theorem ReadsAs.group (hl : l.token = .symbol .lparen)
    (h : m.ReadsAs ending known .expression tokens inside) (hr : r.token = .symbol .rparen) :
    m.ReadsAs ending known .atom (l :: (tokens ++ [r])) (.group inside) := by
  intro n rest hlevels hnames hclear hadvance
  obtain ⟨n, rfl⟩ : ∃ k, n = k + 1 := ⟨n - 1, by simp only [Expr.levels] at hlevels; omega⟩
  have hstops : Phrase.Stops .expression (r :: rest) := by
    simp [Phrase.Stops, Phrase.Clear, hr, Operator.ofToken?]
  have hinside := h n (r :: rest) (Nat.le_of_succ_le_succ hlevels) (by simp_all)
    (hstops.mono (Phrase.tighter_subset _)) (Ending.advance_cons ending r rest)
  simp only [resume_of_stops hstops] at hinside
  rw [List.cons_append, List.append_assoc, List.singleton_append, reader_group hl, hinside,
    bind_assoc, denote]
  simp only [ok_bind, close, hr, if_true, hadvance]
  cases m.denote inside <;> rfl

theorem ReadsAs.call (hm : m.Knows known) {name : String} (ht : t.token = .identifier name)
    (h : m.ReadsAs ending known .atom tokens argument) :
    m.ReadsAs ending known .atom (t :: tokens) (.call t.position name argument) := by
  intro n rest hlevels hnames hclear hadvance
  obtain ⟨n, rfl⟩ : ∃ k, n = k + 1 := ⟨n - 1, by simp only [Expr.levels] at hlevels; omega⟩
  rw [namesKnown_cons] at hnames
  obtain ⟨apply, hcall⟩ := hm.call (hnames.1 name ht) t.position
  have hargument := h n rest (Nat.le_of_succ_le_succ hlevels) hnames.2 hclear hadvance
  rw [List.cons_append, reader_call ht hcall, hargument, bind_assoc, denote]
  simp only [hcall]
  cases m.denote argument <;> rfl

theorem ReadsAs.base (h : m.ReadsAs ending known .atom used tree) :
    m.ReadsAs ending known .power used tree := by
  intro n rest hlevels hnames hclear hadvance
  exact reader_base (h n rest hlevels hnames (hclear.mono (by simp [Phrase.tighter])) hadvance)
    hclear

theorem ReadsAs.raised (hbase : m.ReadsAs ending known .atom lefts b)
    (ht : t.token = .symbol .caret)
    (hexponent : m.ReadsAs ending known .power rights x) :
    m.ReadsAs ending known .power (lefts ++ t :: rights)
      (.binary .pow t.position b x) := by
  intro n rest hlevels hnames hclear hadvance
  obtain ⟨n, rfl⟩ : ∃ k, n = k + 1 := ⟨n - 1, by simp only [Expr.levels] at hlevels; omega⟩
  simp only [Expr.levels, Nat.max_le] at hlevels
  rw [namesKnown_append, namesKnown_cons] at hnames
  have hleft := hbase (n + 1) (t :: (rights ++ rest)) hlevels.1 hnames.1
    (by simp [Phrase.Clear, Phrase.tighter]) (Ending.advance_cons _ _ _)
  have hright := hexponent n rest (Nat.le_of_succ_le_succ hlevels.2) hnames.2.2 hclear hadvance
  rw [List.append_assoc, List.cons_append, reader_raised hleft ht, hright, denote, bind_assoc]
  cases m.denote b with
  | error error => rfl
  | ok v =>
    cases m.denote x with
    | error error => rfl
    | ok w => rfl

theorem ReadsAs.unsigned (hderives : Derives .power used tree)
    (h : m.ReadsAs ending known .power used tree) :
    m.ReadsAs ending known .signedFactor used tree := by
  intro n rest hlevels hnames hclear hadvance
  obtain ⟨t, others, rfl, hsign⟩ := hderives.head_sign (.inl rfl)
  rw [reader_unsigned (by simpa using hsign), h n rest hlevels hnames hclear hadvance]
  rfl

theorem ReadsAs.signed {sign : Sign} (ht : t.token.sign? = some sign)
    (h : m.ReadsAs ending known .power tokens tree) :
    m.ReadsAs ending known .signedFactor (t :: tokens) (.signed sign tree) := by
  intro n rest hlevels hnames hclear hadvance
  rw [namesKnown_cons] at hnames
  rw [List.cons_append, reader_signed ht, h n rest hlevels hnames.2 hclear hadvance, denote]
  cases m.denote tree <;> rfl

theorem ReadsAs.first (joins : Phrase.Joins phrase tier operand)
    (h : m.ReadsAs ending known operand used tree) : m.ReadsAs ending known phrase used tree := by
  intro n rest hlevels hnames hclear hadvance
  rw [joins.tighter_eq] at hclear
  rw [reader_joined joins,
    h n rest hlevels hnames (hclear.mono (Phrase.tighter_subset _)) hadvance, bind_assoc]
  simp only [resume_of_stops hclear, ok_bind]

theorem ReadsAs.joined {op : Operator} (joins : Phrase.Joins phrase tier operand)
    (hlefts : m.ReadsAs ending known phrase lefts left)
    (ht : Operator.ofTier? tier t.token = some op)
    (hrights : m.ReadsAs ending known operand rights right) :
    m.ReadsAs ending known phrase (lefts ++ t :: rights) (.binary op t.position left right) := by
  intro n rest hlevels hnames hclear hadvance
  rw [Expr.levels_binary (joins.op_ne_pow ht), Nat.max_le] at hlevels
  rw [namesKnown_append, namesKnown_cons] at hnames
  rw [joins.tighter_eq] at hclear
  have hleft := hlefts n (t :: (rights ++ rest)) hlevels.1 hnames.1
    (by rw [joins.tighter_eq]; exact Phrase.clear_cons_of_ofTier? ht joins.tier_not_mem)
    (Ending.advance_cons _ _ _)
  have hright := hrights n rest hlevels.2 hnames.2.2 (hclear.mono (Phrase.tighter_subset _))
    hadvance
  simp only [resume_of_stops hclear] at hright
  rw [List.append_assoc, List.cons_append, hleft, denote, bind_assoc]
  simp only [resume_cons joins ht, hright]
  cases m.denote left with
  | error error => rfl
  | ok v =>
    cases m.denote right with
    | error error => rfl
    | ok w => rfl

end Derivations

/-- Every derivation is read as what its tree denotes. -/
theorem reader_of_derives (hm : m.Knows known) (h : Derives phrase used tree) :
    m.ReadsAs ending known phrase used tree := by
  induction h with
  | number h => exact .number h
  | group hl inside hr ih => exact .group hl ih hr
  | call h argument ih => exact .call hm h ih
  | base h ih => exact .base ih
  | raised base h exponent ihb ihe => exact .raised ihb h ihe
  | unsigned h ih => exact .unsigned h ih
  | signed h power ih => exact .signed h ih
  | operand joins h ih => exact .first joins ih
  | joined joins left h right ihl ihr => exact .joined joins ihl h ihr

theorem reader_of_admits (hm : m.Knows known) (h : Admits known n phrase used tree)
    (hstops : phrase.Stops rest) (hadvance : ending.advance rest = .ok rest) :
    m.reader ending n phrase (used ++ rest) = m.denote tree >>= fun v => .ok (v, rest) := by
  rw [reader_of_derives hm h.derives n rest h.levels h.names
    (hstops.mono (Phrase.tighter_subset _)) hadvance]
  simp only [resume_of_stops hstops]

/-- One of the tokens is an operator that refuses its operands, for the reason `e`. -/
def Refuses (m : Meaning V) (tokens : List Located) (e : EvalError) : Prop :=
  ∃ t ∈ tokens, ∃ op a b, Operator.ofToken? t.token = some op ∧
    m.combine op t.position a b = .error e

theorem Refuses.mono {few many : List Located} (h : m.Refuses few e) (hsub : few ⊆ many) :
    m.Refuses many e :=
  let ⟨t, ht, hop⟩ := h
  ⟨t, hsub ht, hop⟩

/-- A tree of known functions denotes something unless an operator refuses its operands. -/
theorem refuses_of_denote (hm : m.Knows known) (h : Derives phrase used tree)
    (hnames : NamesKnown known used) (he : m.denote tree = .error e) : m.Refuses used e := by
  induction h generalizing e with
  | number h => cases he
  | group hl inside hr ih =>
    rw [denote] at he
    rcases bind_eq_error.mp he with htree | ⟨v, -, hv⟩
    · exact (ih (by simp_all) htree).mono (by simp)
    · cases hv
  | @call t name tokens tree h argument ih =>
    rw [namesKnown_cons] at hnames
    obtain ⟨apply, hcall⟩ := hm.call (hnames.1 name h) t.position
    rw [denote, hcall] at he
    rcases bind_eq_error.mp he with htree | ⟨v, -, hv⟩
    · exact (ih hnames.2 htree).mono (by simp)
    · cases hv
  | base h ih => exact ih hnames he
  | @raised t left right b tree base h exponent ihb ihe =>
    rw [namesKnown_append, namesKnown_cons] at hnames
    rw [denote] at he
    rcases bind_eq_error.mp he with hb | ⟨v, -, he⟩
    · exact (ihb hnames.1 hb).mono (by simp)
    · rcases bind_eq_error.mp he with hexponent | ⟨w, -, he⟩
      · exact (ihe hnames.2.2 hexponent).mono (by simp)
      · exact ⟨t, by simp, .pow, v, w, by rw [h]; rfl, he⟩
  | unsigned h ih => exact ih hnames he
  | signed h power ih =>
    rw [namesKnown_cons] at hnames
    rw [denote] at he
    rcases bind_eq_error.mp he with htree | ⟨v, -, hv⟩
    · exact (ih hnames.2 htree).mono (by simp)
    · cases hv
  | operand joins h ih => exact ih hnames he
  | @joined phrase operand tier op t lefts rights l r joins left h right ihl ihr =>
    rw [namesKnown_append, namesKnown_cons] at hnames
    rw [denote] at he
    rcases bind_eq_error.mp he with hl | ⟨v, -, he⟩
    · exact (ihl hnames.1 hl).mono (by simp)
    · rcases bind_eq_error.mp he with hr | ⟨w, -, he⟩
      · exact (ihr hnames.2.2 hr).mono (by simp)
      · exact ⟨t, by simp, op, v, w, (Option.filter_eq_some_iff.mp h).1, he⟩

/-- Reading ends in `e`, if no operator among the tokens refused its operands before. -/
def EndsIn {α : Type} (m : Meaning V) (tokens : List Located) (e : EvalError)
    (result : Except EvalError α) : Prop :=
  result = .error e ∨ ∃ d, m.Refuses tokens d ∧ result = .error d

theorem EndsIn.bind {α β : Type} {few many : List Located} {result : Except EvalError α}
    (h : m.EndsIn few e result) (hsub : few ⊆ many) (f : α → Except EvalError β) :
    m.EndsIn many e (result >>= f) := by
  rcases h with rfl | ⟨d, hd, rfl⟩
  · exact .inl rfl
  · exact .inr ⟨d, hd.mono hsub, rfl⟩

theorem endsIn_denote_bind {α : Type} (hm : m.Knows known) (h : Admits known n phrase used tree)
    (hsub : used ⊆ tokens) {f : V → Except EvalError α}
    (hf : ∀ v, m.EndsIn tokens e (f v)) : m.EndsIn tokens e (m.denote tree >>= f) := by
  cases htree : m.denote tree with
  | ok v => exact hf v
  | error d => exact .inr ⟨d, (refuses_of_denote hm h.derives h.names htree).mono hsub, rfl⟩

section Failing

variable {name : String} {l r : Located} {inside base left : Expr}

theorem endsIn_tooDeep (hm : m.Knows known)
    (h : t.token = .symbol .lparen ∨ ∃ name, t.token = .identifier name ∧ known name = true) :
    m.EndsIn [] ⟨t.position, .nestingTooDeep nestingLimit⟩
      (m.reader ending 0 .atom (t :: rest)) := by
  rcases h with h | ⟨name, h, hname⟩
  · exact .inl (reader_group_zero h)
  · obtain ⟨apply, hcall⟩ := hm.call hname t.position
    exact .inl (reader_call_zero h hcall)

theorem endsIn_unclosed (hm : m.Knows known) (hl : l.token = .symbol .lparen)
    (h : Admits known n .expression tokens inside) (hstops : Phrase.Stops .expression rest)
    (hadvance : ending.advance rest = .ok rest) (hr : ∀ t ∈ rest.head?, t.token ≠ .symbol .rparen) :
    m.EndsIn (l :: tokens) (ending.bracketError rest)
      (m.reader ending (n + 1) .atom (l :: tokens ++ rest)) := by
  rw [List.cons_append, reader_group hl, reader_of_admits hm h hstops hadvance, bind_assoc]
  refine endsIn_denote_bind hm h (List.subset_cons_self _ _) fun v => .inl ?_
  cases rest with
  | nil => rfl
  | cons t rest => simp [close, hr t rfl, Ending.bracketError]

theorem endsIn_closed (hm : m.Knows known) (hl : l.token = .symbol .lparen)
    (h : Admits known n .expression tokens inside) (hr : r.token = .symbol .rparen)
    (hending : ending = .fault e) :
    m.EndsIn (l :: (tokens ++ [r])) e
      (m.reader ending (n + 1) .atom (l :: (tokens ++ [r]) ++ [])) := by
  have hstops : Phrase.Stops .expression [r] := by
    simp [Phrase.Stops, Phrase.Clear, hr, Operator.ofToken?]
  rw [List.append_nil, reader_group hl, reader_of_admits hm h hstops (Ending.advance_cons _ _ _),
    bind_assoc]
  refine endsIn_denote_bind hm h (by simp) fun v => .inl ?_
  subst hending
  simp [close, hr, Ending.advance]

theorem endsIn_call (hm : m.Knows known) (ht : t.token = .identifier name)
    (hname : known name = true) (h : m.EndsIn pre e (m.reader ending n .atom (pre ++ rest))) :
    m.EndsIn (t :: pre) e (m.reader ending (n + 1) .atom (t :: pre ++ rest)) := by
  obtain ⟨apply, hcall⟩ := hm.call hname t.position
  rw [List.cons_append, reader_call ht hcall]
  exact h.bind (List.subset_cons_self _ _) _

theorem endsIn_base (h : m.EndsIn pre e (m.reader ending n .atom tokens)) :
    m.EndsIn pre e (m.reader ending n .power tokens) := by
  rcases h with h | ⟨d, hd, h⟩
  · exact .inl (reader_base_error h)
  · exact .inr ⟨d, hd, reader_base_error h⟩

theorem reader_of_base (hm : m.Knows known) (hbase : Admits known n .atom tokens base) :
    m.reader ending n .atom (tokens ++ t :: rest) =
      m.denote base >>= fun v => .ok (v, t :: rest) :=
  reader_of_admits hm hbase (by simp [Phrase.Clear, Phrase.tiers]) (Ending.advance_cons _ _ _)

theorem endsIn_tooHigh (hm : m.Knows known) (hbase : Admits known 0 .atom tokens base)
    (ht : t.token = .symbol .caret) (hadvance : ending.advance rest = .ok rest) :
    m.EndsIn tokens ⟨t.position, .nestingTooDeep nestingLimit⟩
      (m.reader ending 0 .power (tokens ++ t :: rest)) := by
  rw [reader_raised_zero (reader_of_base hm hbase) ht]
  exact endsIn_denote_bind hm hbase (List.Subset.refl _) fun v => .inl (by rw [hadvance]; rfl)

theorem endsIn_caret (hm : m.Knows known) (hbase : Admits known 0 .atom tokens base)
    (ht : t.token = .symbol .caret) (hending : ending = .fault e) :
    m.EndsIn (tokens ++ [t]) e (m.reader ending 0 .power (tokens ++ [t] ++ [])) := by
  rw [List.append_nil, reader_raised_zero (reader_of_base hm hbase) ht]
  exact endsIn_denote_bind hm hbase (by simp) fun v => .inl (by rw [hending]; rfl)

theorem endsIn_exponent (hm : m.Knows known) (hbase : Admits known (n + 1) .atom tokens base)
    (ht : t.token = .symbol .caret)
    (h : m.EndsIn pre e (m.reader ending n .power (pre ++ rest))) :
    m.EndsIn (tokens ++ t :: pre) e
      (m.reader ending (n + 1) .power (tokens ++ t :: pre ++ rest)) := by
  rw [List.append_assoc, List.cons_append, reader_raised (reader_of_base hm hbase) ht]
  exact endsIn_denote_bind hm hbase (by simp) fun v => h.bind (by simp) _

theorem endsIn_further {op : Operator} (hm : m.Knows known)
    (joins : Phrase.Joins phrase tier operand) (hleft : Admits known n phrase tokens left)
    (ht : Operator.ofTier? tier t.token = some op)
    (h : m.EndsIn pre e (m.reader ending n operand (pre ++ rest))) :
    m.EndsIn (tokens ++ t :: pre) e
      (m.reader ending n phrase (tokens ++ t :: pre ++ rest)) := by
  have hclear : Phrase.Clear phrase.tighter (t :: (pre ++ rest)) := by
    rw [joins.tighter_eq]
    exact Phrase.clear_cons_of_ofTier? ht joins.tier_not_mem
  rw [List.append_assoc, List.cons_append, reader_of_derives hm hleft.derives n _ hleft.levels
    hleft.names hclear (Ending.advance_cons _ _ _)]
  refine endsIn_denote_bind hm hleft (by simp) fun v => ?_
  rw [resume_cons joins ht]
  exact h.bind (by simp) _

end Failing

/-- Tokens that fail to start with a phrase fail for every meaning alike. -/
theorem reader_of_fails (hm : m.Knows known) (h : Fails known ending n phrase pre rest e) :
    m.EndsIn pre e (m.reader ending n phrase (pre ++ rest)) := by
  induction h with
  | operand h => exact .inl (reader_operandError h)
  | @unknown n t name rest h hname =>
    have hcall : m.call? t.position name = none := by
      simpa [hname] using hm t.position name
    exact .inl (reader_unknown h hcall)
  | tooDeep h => exact endsIn_tooDeep hm h
  | number h hending =>
    subst hending
    exact .inl (reader_number h)
  | group hl h ih =>
    rw [List.cons_append, reader_group hl]
    exact ih.bind (List.subset_cons_self _ _) _
  | unclosed hl h hstops hadvance hr => exact endsIn_unclosed hm hl h hstops hadvance hr
  | closed hl h hr hending => exact endsIn_closed hm hl h hr hending
  | call ht hname h ih => exact endsIn_call hm ht hname ih
  | base h ih => exact endsIn_base ih
  | tooHigh hbase ht hadvance => exact endsIn_tooHigh hm hbase ht hadvance
  | caret hbase ht hending => exact endsIn_caret hm hbase ht hending
  | exponent hbase ht h ih => exact endsIn_exponent hm hbase ht ih
  | unsigned hsign h ih =>
    rw [reader_unsigned hsign]
    exact ih
  | signed ht h ih =>
    rw [List.cons_append, reader_signed ht]
    exact ih.bind (List.subset_cons_self _ _) _
  | first joins h ih =>
    rw [reader_joined joins]
    exact ih.bind (List.Subset.refl _) _
  | further joins hleft ht h ih => exact endsIn_further hm joins hleft ht ih

/-- What is read is the value of a derivation, which stops where reading did. -/
theorem derivation_of_reader (hm : m.Knows known) {v : V}
    (h : m.reader ending n phrase tokens = .ok (v, rest)) :
    ∃ used tree, used ++ rest = tokens ∧ Admits known n phrase used tree ∧
      phrase.Stops rest ∧ m.denote tree = .ok v := by
  rcases reads_or_breaks known ending n phrase tokens with
    ⟨used, rest', tree, rfl, hadmits, hstops, hadvance⟩ | ⟨pre, rest', e, rfl, hfails⟩
  · rw [reader_of_admits hm hadmits hstops hadvance] at h
    obtain ⟨w, hw, h⟩ := bind_eq_ok.mp h
    cases h
    exact ⟨used, tree, rfl, hadmits, hstops, hw⟩
  · rcases reader_of_fails hm hfails with he | ⟨d, -, he⟩ <;> rw [h] at he <;> cases he

end Reckoner.Meaning

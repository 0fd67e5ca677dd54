import Reckoner.Proofs.Grammar.Failure

/-!
# Levels that are open

Which levels are open behind some tokens can be told from the tokens alone, from left to right and
without knowing what they derive. Main statements: while a phrase is read, as many levels are open
as its tree has at most, and none of its own behind it but exponents that nothing has ended yet; and
reading stops for want of levels at the first token that opens one when all are open.
-/
namespace Reckoner

inductive Opening where
  | group
  | argument
  | exponent
deriving DecidableEq

def Token.opens : Token → Bool
  | .identifier _ | .symbol .lparen | .symbol .caret => true
  | _ => false

namespace Opening

/-- The levels that are open behind one more token, the innermost first. A number or a closing
bracket completes an atom, and with it the arguments that the atom is. A closing bracket first ends
its group and the exponents in it; any other operator ends the exponents in front of it. -/
def step (opened : List Opening) : Token → List Opening
  | .number _ => opened.dropWhile (· = argument)
  | .identifier _ => argument :: opened
  | .symbol .lparen => group :: opened
  | .symbol .rparen => (opened.dropWhile (· ≠ group)).tail.dropWhile (· = argument)
  | .symbol .caret => exponent :: opened
  | .symbol _ => opened.dropWhile (· = exponent)

/-- The levels that are open behind some tokens if these are open in front of them. -/
def through (opened : List Opening) (tokens : List Located) : List Opening :=
  tokens.foldl (fun opened t => step opened t.token) opened

/-- Each of the tokens that opens a level does so while fewer than `limit` are open. -/
def Below (limit : Nat) : List Opening → List Located → Prop
  | _, [] => True
  | opened, t :: rest =>
    (t.token.opens = true → opened.length < limit) ∧ Below limit (step opened t.token) rest

end Opening

/-- The levels that are open behind the tokens that a source starts with. -/
def openings (tokens : List Located) : List Opening := Opening.through [] tokens

namespace Opening

variable {opened : List Opening} {limit : Nat} {front back : List Located}

@[simp] theorem through_nil (opened : List Opening) : through opened [] = opened := rfl

@[simp] theorem through_cons (opened : List Opening) (t : Located) (rest : List Located) :
    through opened (t :: rest) = through (step opened t.token) rest := rfl

@[simp] theorem through_append (opened : List Opening) (front back : List Located) :
    through opened (front ++ back) = through (through opened front) back :=
  List.foldl_append

@[simp] theorem below_append : Below limit opened (front ++ back) ↔
    Below limit opened front ∧ Below limit (through opened front) back := by
  induction front generalizing opened with
  | nil => simp [Below]
  | cons t front ih => simp only [List.cons_append, Below, ih, through_cons, and_assoc]

theorem Below.lt (h : Below limit opened (front ++ back)) :
    ∀ t ∈ back.head?, t.token.opens = true → (through opened front).length < limit := by
  intro t ht hopens
  obtain ⟨rest, rfl⟩ := List.head?_eq_some_iff.mp ht
  exact (below_append.mp h).2.1 hopens

theorem dropWhile_of_head {p : Opening → Bool} (h : ∀ o ∈ opened.head?, p o = false) :
    opened.dropWhile p = opened := by
  cases opened with
  | nil => rfl
  | cons o opened => exact List.dropWhile_cons_of_neg (by simp [h o rfl])

theorem dropWhile_exponents (n : Nat) (h : ∀ o ∈ opened.head?, o = .group) :
    (List.replicate n exponent ++ opened).dropWhile (· = exponent) = opened := by
  rw [List.dropWhile_append_of_pos (by simp +contextual [List.mem_replicate])]
  exact dropWhile_of_head fun o ho => by rw [h o ho]; rfl

theorem dropWhile_to_group (n : Nat) (opened : List Opening) :
    (List.replicate n exponent ++ group :: opened).dropWhile (· ≠ group) = group :: opened := by
  rw [List.dropWhile_append_of_pos (by simp +contextual [List.mem_replicate])]
  exact List.dropWhile_cons_of_neg (by simp)

end Opening

theorem openings_concat (pre : List Located) (t : Located) :
    openings (pre ++ [t]) = Opening.step (openings pre) t.token := by
  rw [openings, Opening.through_append]
  rfl

theorem length_openings_of_opens {pre : List Located} {t : Located} (h : t.token.opens = true) :
    (openings (pre ++ [t])).length = (openings pre).length + 1 := by
  rw [openings_concat]
  cases ht : t.token with
  | number value => simp [ht, Token.opens] at h
  | identifier name => rfl
  | symbol s => cases s <;> simp_all [Token.opens, Opening.step]

namespace Phrase

/-- Such a phrase can stand where these levels are open: only an atom is an argument, and no
operator but a caret stands in an exponent. -/
def Fits : Phrase → List Opening → Prop
  | atom, _ => True
  | power, opened => opened.head? ≠ some .argument
  | _, opened => ∀ o ∈ opened.head?, o = .group

variable {phrase operand : Phrase} {tier : Tier} {opened : List Opening}

theorem Joins.fits_iff (joins : Joins phrase tier operand) :
    phrase.Fits opened ↔ ∀ o ∈ opened.head?, o = .group := by
  cases joins <;> rfl

theorem Joins.fits_operand (joins : Joins phrase tier operand) (h : phrase.Fits opened) :
    operand.Fits opened := by
  cases joins <;> exact h

theorem Joins.ne_atom (joins : Joins phrase tier operand) : phrase ≠ .atom := by
  cases joins <;> decide

theorem fits_of_group (phrase : Phrase) (h : ∀ o ∈ opened.head?, o = .group) :
    phrase.Fits opened := by
  cases phrase with
  | atom => trivial
  | power =>
    intro hhead
    cases h _ hhead
  | expression | term | signedFactor => exact h

/-- Only an atom can stand where an argument is due. -/
theorem Fits.dropWhile_argument (h : phrase.Fits opened) (hphrase : phrase ≠ .atom) :
    opened.dropWhile (· = .argument) = opened := by
  have hpower : power.Fits opened := by
    cases phrase with
    | atom => exact absurd rfl hphrase
    | power => exact h
    | expression | term | signedFactor => exact fits_of_group power h
  refine Opening.dropWhile_of_head fun o ho => decide_eq_false ?_
  rintro rfl
  exact hpower ho

end Phrase

open Opening (through step Below through_cons through_append)

/-- The operators that join operands, and the signs, open nothing and end exponents. -/
theorem Phrase.Joins.ends {phrase operand : Phrase} {tier : Tier} {op : Operator} {token : Token}
    (joins : Joins phrase tier operand) (h : Operator.ofTier? tier token = some op) :
    token.opens = false ∧ ∀ opened, step opened token = opened.dropWhile (· = .exponent) := by
  obtain ⟨hop, htier⟩ := Option.filter_eq_some_iff.mp h
  cases token with
  | number value => cases hop
  | identifier name => cases hop
  | symbol s =>
    cases s with
    | plus | minus | star | slash | percent => exact ⟨rfl, fun _ => rfl⟩
    | caret => exact absurd (Option.some.inj hop).symm (joins.op_ne_pow h)
    | lparen | rparen => cases hop

theorem Token.ends_of_sign? {token : Token} {sign : Sign} (h : token.sign? = some sign) :
    token.opens = false ∧ ∀ opened, step opened token = opened.dropWhile (· = .exponent) := by
  cases token with
  | number value => cases h
  | identifier name => cases h
  | symbol s =>
    cases s with
    | plus | minus => exact ⟨rfl, fun _ => rfl⟩
    | star | slash | percent | caret | lparen | rparen => cases h

/-- Behind a phrase, the levels that it stood in are open, but not the arguments that it was, and
above them only exponents that nothing has ended yet. -/
theorem through_of_derives {phrase : Phrase} {used : List Located} {tree : Expr}
    (h : Derives phrase used tree) : ∀ opened, phrase.Fits opened →
      ∃ n, through opened used = List.replicate n .exponent ++ opened.dropWhile (· = .argument) ∧
        (phrase = .atom → n = 0) := by
  induction h with
  | number h =>
    intro opened hfits
    exact ⟨0, by simp [h, step], fun _ => rfl⟩
  | group hl inside hr ih =>
    intro opened hfits
    obtain ⟨n, hinside, -⟩ := ih (.group :: opened) (by simp [Phrase.Fits])
    refine ⟨0, ?_, fun _ => rfl⟩
    rw [through_cons, through_append, hl, step, hinside, through_cons, hr, step,
      List.dropWhile_cons_of_neg (by decide), Opening.dropWhile_to_group]
    rfl
  | call h argument ih =>
    intro opened hfits
    obtain ⟨n, hargument, hn⟩ := ih (.argument :: opened) trivial
    obtain rfl := hn rfl
    refine ⟨0, ?_, fun _ => rfl⟩
    rw [through_cons, h, step, hargument, List.dropWhile_cons_of_pos (by decide)]
  | base h ih =>
    intro opened hfits
    obtain ⟨n, hatom, -⟩ := ih opened trivial
    exact ⟨n, hatom, nofun⟩
  | raised base h exponent ihb ihe =>
    intro opened hfits
    obtain ⟨n, hbase, hn⟩ := ihb opened trivial
    obtain rfl := hn rfl
    obtain ⟨n, hexponent, -⟩ := ihe (.exponent :: opened) (by simp [Phrase.Fits])
    refine ⟨n + 1, ?_, nofun⟩
    rw [hfits.dropWhile_argument (by decide)] at hbase ⊢
    rw [through_append, hbase, through_cons, h, List.replicate_zero, List.nil_append, step,
      hexponent, List.dropWhile_cons_of_neg (by decide), List.replicate_succ', List.append_assoc]
    rfl
  | unsigned h ih =>
    intro opened hfits
    obtain ⟨n, hpower, -⟩ := ih opened (Phrase.fits_of_group .power hfits)
    exact ⟨n, hpower, nofun⟩
  | signed h power ih =>
    intro opened hfits
    obtain ⟨n, hpower, -⟩ := ih opened (Phrase.fits_of_group .power hfits)
    have hsame := Opening.dropWhile_exponents 0 hfits
    rw [List.replicate_zero, List.nil_append] at hsame
    refine ⟨n, ?_, nofun⟩
    rw [through_cons, (Token.ends_of_sign? h).2, hsame, hpower]
  | operand joins h ih =>
    intro opened hfits
    obtain ⟨n, hoperand, -⟩ := ih opened (joins.fits_operand hfits)
    exact ⟨n, hoperand, fun hatom => absurd hatom joins.ne_atom⟩
  | joined joins left h right ihl ihr =>
    intro opened hfits
    obtain ⟨n, hleft, -⟩ := ihl opened hfits
    obtain ⟨k, hright, -⟩ := ihr opened (joins.fits_operand hfits)
    refine ⟨k, ?_, fun hatom => absurd hatom joins.ne_atom⟩
    rw [hfits.dropWhile_argument joins.ne_atom] at hleft
    rw [through_append, hleft, through_cons, (joins.ends h).2,
      Opening.dropWhile_exponents n (joins.fits_iff.mp hfits), hright]

section Phrases

variable {known : String → Bool} {ending : Ending} {phrase : Phrase} {used pre rest : List Located}
  {tree : Expr} {opened : List Opening} {n limit : Nat} {e : EvalError}

theorem through_of_atom (h : Derives .atom used tree) (opened : List Opening) :
    through opened used = opened.dropWhile (· = .argument) := by
  obtain ⟨n, hused, hn⟩ := through_of_derives h opened trivial
  rw [hused, hn rfl]
  rfl

theorem through_of_phrase (h : Derives phrase used tree) (hphrase : phrase ≠ .atom)
    (hfits : phrase.Fits opened) :
    ∃ n, through opened used = List.replicate n .exponent ++ opened := by
  obtain ⟨n, hused, -⟩ := through_of_derives h opened hfits
  exact ⟨n, by rw [hused, hfits.dropWhile_argument hphrase]⟩

theorem through_of_base (h : Derives .atom used tree) (hfits : Phrase.Fits .power opened) :
    through opened used = opened := by
  rw [through_of_atom h, hfits.dropWhile_argument (by decide)]

/-- Behind an operator that carries a phrase on, nothing is open that was not in front of the
phrase. -/
theorem through_of_left {operand : Phrase} {tier : Tier} {op : Operator} {t : Located}
    (joins : Phrase.Joins phrase tier operand) (h : Derives phrase used tree)
    (ht : Operator.ofTier? tier t.token = some op) (hfits : phrase.Fits opened) :
    step (through opened used) t.token = opened := by
  obtain ⟨n, hused⟩ := through_of_phrase h joins.ne_atom hfits
  rw [hused, (joins.ends ht).2, Opening.dropWhile_exponents n (joins.fits_iff.mp hfits)]

theorem step_of_sign {t : Located} {sign : Sign} (h : t.token.sign? = some sign)
    (hfits : Phrase.Fits .signedFactor opened) : step opened t.token = opened := by
  rw [(Token.ends_of_sign? h).2]
  exact Opening.dropWhile_exponents 0 hfits

/-- While a phrase is read, no more levels are opened than its tree has. -/
theorem below_of_derives (h : Derives phrase used tree) : ∀ opened, phrase.Fits opened →
    opened.length + tree.levels ≤ limit → Below limit opened used := by
  induction h with
  | number h =>
    intro opened hfits hlevels
    simp [Below, h, Token.opens]
  | group hl inside hr ih =>
    intro opened hfits hlevels
    rw [Expr.levels] at hlevels
    have hinside := ih (.group :: opened) (by simp [Phrase.Fits])
      (by rw [List.length_cons]; omega)
    simp only [Below, hl, step, Opening.below_append, hinside, hr, Token.opens, true_and, and_true]
    exact ⟨fun _ => by omega, fun h => absurd h Bool.false_ne_true⟩
  | call h argument ih =>
    intro opened hfits hlevels
    rw [Expr.levels] at hlevels
    have hargument := ih (.argument :: opened) trivial (by rw [List.length_cons]; omega)
    simp only [Below, h, step, hargument, and_true]
    exact fun _ => by omega
  | base h ih => exact fun opened hfits => ih opened trivial
  | raised base h exponent ihb ihe =>
    intro opened hfits hlevels
    rw [Expr.levels] at hlevels
    have hbase := ihb opened trivial (by omega)
    have hexponent := ihe (.exponent :: opened) (by simp [Phrase.Fits])
      (by rw [List.length_cons]; omega)
    simp only [Opening.below_append, hbase, through_of_base base hfits, Below, h, step, hexponent,
      true_and, and_true]
    exact fun _ => by omega
  | unsigned h ih => exact fun opened hfits => ih opened (Phrase.fits_of_group .power hfits)
  | signed h power ih =>
    intro opened hfits hlevels
    have hpower := ih opened (Phrase.fits_of_group .power hfits) hlevels
    simp only [Below, (Token.ends_of_sign? h).1, step_of_sign h hfits, hpower, and_true]
    exact fun h => absurd h Bool.false_ne_true
  | operand joins h ih => exact fun opened hfits => ih opened (joins.fits_operand hfits)
  | joined joins left h right ihl ihr =>
    intro opened hfits hlevels
    rw [Expr.levels_binary (joins.op_ne_pow h)] at hlevels
    have hleft := ihl opened hfits (by omega)
    have hright := ihr opened (joins.fits_operand hfits) (by omega)
    simp only [Opening.below_append, hleft, Below, through_of_left joins left h hfits, hright,
      (joins.ends h).1, true_and, and_true]
    exact fun h => absurd h Bool.false_ne_true

/-- Behind the tokens, `limit` levels are open, and none of them was opened in excess of that. -/
structure Fills (limit : Nat) (opened : List Opening) (tokens : List Located) : Prop where
  length : (through opened tokens).length = limit
  below : Below limit opened tokens

theorem Fills.opening {t : Located} {o : Opening} (hstep : step opened t.token = o :: opened)
    (h : Fills ((o :: opened).length + n) (o :: opened) pre) :
    Fills (opened.length + (n + 1)) opened (t :: pre) := by
  have hlimit : (o :: opened).length + n = opened.length + (n + 1) := by
    rw [List.length_cons, Nat.add_right_comm, Nat.add_assoc]
  rw [hlimit] at h
  refine ⟨?_, fun _ => Nat.lt_add_of_pos_right n.succ_pos, ?_⟩
  · rw [through_cons, hstep, h.length]
  · rw [hstep]
    exact h.below

theorem Fills.passing {t : Located} {behind : List Opening} (ht : t.token.opens = false)
    (hstep : step opened t.token = behind) (h : Fills limit behind pre) :
    Fills limit opened (t :: pre) := by
  subst hstep
  exact ⟨h.length, fun hopens => absurd (ht.symm.trans hopens) Bool.false_ne_true, h.below⟩

theorem Fills.behind {between : List Opening} (hbelow : Below limit opened used)
    (hthrough : through opened used = between) (h : Fills limit between pre) :
    Fills limit opened (used ++ pre) := by
  subst hthrough
  exact ⟨by rw [through_append, h.length], Opening.below_append.mpr ⟨hbelow, h.below⟩⟩

theorem below_of_admits (h : Admits known n phrase used tree) (hfits : phrase.Fits opened) :
    Below (opened.length + n) opened used :=
  below_of_derives h.derives opened hfits (Nat.add_le_add_left h.levels _)

/-- Reading stops for want of levels at a token that opens one while all are open. -/
theorem Fails.opens (h : Fails known ending n phrase pre rest e) (hrest : rest ≠ [])
    (hcause : e.cause = .nestingTooDeep nestingLimit) : ∀ opened, phrase.Fits opened →
      (∀ t ∈ rest.head?, t.token.opens = true) ∧ Fills (opened.length + n) opened pre := by
  induction h with
  | @operand n rest h =>
    obtain ⟨t, rest, rfl⟩ := List.exists_cons_of_ne_nil hrest
    rw [Ending.operandError] at hcause
    split at hcause <;> cases hcause
  | unknown h hname => cases hcause
  | tooDeep h =>
    refine fun opened hfits => ⟨fun t ht => ?_, rfl, trivial⟩
    obtain rfl := Option.some.inj ht
    rcases h with h | ⟨name, h, -⟩ <;> rw [h] <;> rfl
  | number h hending => exact absurd rfl hrest
  | group hl h ih =>
    intro opened hfits
    obtain ⟨hopens, hfills⟩ := ih hrest hcause (.group :: opened) (by simp [Phrase.Fits])
    exact ⟨hopens, .opening (by rw [hl]; rfl) hfills⟩
  | unclosed hl h hstops hadvance hr =>
    obtain ⟨t, rest, rfl⟩ := List.exists_cons_of_ne_nil hrest
    cases hcause
  | closed hl h hr hending => exact absurd rfl hrest
  | call ht hname h ih =>
    intro opened hfits
    obtain ⟨hopens, hfills⟩ := ih hrest hcause (.argument :: opened) trivial
    exact ⟨hopens, .opening (by rw [ht]; rfl) hfills⟩
  | base h ih => exact fun opened hfits => ih hrest hcause opened trivial
  | tooHigh hbase ht hadvance =>
    refine fun opened hfits => ⟨fun t' ht' => ?_, ?_, below_of_admits hbase trivial⟩
    · obtain rfl := Option.some.inj ht'
      rw [ht]
      rfl
    · rw [through_of_base hbase.derives hfits, Nat.add_zero]
  | caret hbase ht hending => exact absurd rfl hrest
  | exponent hbase ht h ih =>
    intro opened hfits
    obtain ⟨hopens, hfills⟩ := ih hrest hcause (.exponent :: opened) (by simp [Phrase.Fits])
    refine ⟨hopens, .behind (below_of_admits hbase trivial)
      (through_of_base hbase.derives hfits) ?_⟩
    exact .opening (by rw [ht]; rfl) hfills
  | unsigned hsign h ih =>
    exact fun opened hfits => ih hrest hcause opened (Phrase.fits_of_group .power hfits)
  | signed ht h ih =>
    intro opened hfits
    obtain ⟨hopens, hfills⟩ := ih hrest hcause opened (Phrase.fits_of_group .power hfits)
    exact ⟨hopens, hfills.passing (Token.ends_of_sign? ht).1 (step_of_sign ht hfits)⟩
  | first joins h ih =>
    exact fun opened hfits => ih hrest hcause opened (joins.fits_operand hfits)
  | further joins hleft ht h ih =>
    intro opened hfits
    obtain ⟨hopens, hfills⟩ := ih hrest hcause opened (joins.fits_operand hfits)
    refine ⟨hopens, .behind (below_of_admits hleft hfits) rfl ?_⟩
    exact hfills.passing (joins.ends ht).1 (through_of_left joins hleft.derives ht hfits)

end Phrases

end Reckoner

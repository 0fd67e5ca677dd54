import Reckoner.Proofs.Grammar.Input

/-!
# Viable prefixes

Tokens are viable when more tokens can complete them to an expression. What is read up to a failure
is viable. If the failure blames a token, nothing that starts with that token behind what was read
is an expression, whatever names, levels and tokens there are.
-/
namespace Reckoner

def Sentence (tokens : List Token) : Prop :=
  ∃ located tree, located.map Located.token = tokens ∧ Derives .expression located tree

/-- Some tokens complete these to an expression. -/
def Viable (tokens : List Token) : Prop :=
  ∃ more, Sentence (tokens ++ more)

/-- The cause blames a token for standing where no expression allows it. -/
def Cause.blamesToken : Cause → Bool
  | .notANumber _ | .missingBracket | .trailingInput _ => true
  | _ => false

theorem Derives.relocate {phrase : Phrase} {tokens : List Located} {tree : Expr}
    (h : Derives phrase tokens tree) : ∀ other : List Located,
      other.map Located.token = tokens.map Located.token → ∃ tree', Derives phrase other tree' := by
  induction h with
  | number h =>
    intro other hother
    obtain ⟨t, rest, rfl, ht, hrest⟩ := List.map_eq_cons_iff.mp hother
    obtain rfl := List.map_eq_nil_iff.mp hrest
    exact ⟨_, .number (ht.trans h)⟩
  | group hl inside hr ih =>
    intro other hother
    obtain ⟨l, rest, rfl, hl', hrest⟩ := List.map_eq_cons_iff.mp hother
    rw [List.map_append] at hrest
    obtain ⟨tokens', last, rfl, htokens, hlast⟩ := List.map_eq_append_iff.mp hrest
    obtain ⟨r, rest, rfl, hr', hnil⟩ := List.map_eq_cons_iff.mp hlast
    obtain rfl := List.map_eq_nil_iff.mp hnil
    obtain ⟨tree', h'⟩ := ih tokens' htokens
    exact ⟨_, .group (hl'.trans hl) h' (hr'.trans hr)⟩
  | call h argument ih =>
    intro other hother
    obtain ⟨t, rest, rfl, ht, hrest⟩ := List.map_eq_cons_iff.mp hother
    obtain ⟨tree', h'⟩ := ih rest hrest
    exact ⟨_, .call (ht.trans h) h'⟩
  | base h ih =>
    intro other hother
    obtain ⟨tree', h'⟩ := ih other hother
    exact ⟨tree', .base h'⟩
  | raised base h exponent ihb ihe =>
    intro other hother
    rw [List.map_append] at hother
    obtain ⟨left, right, rfl, hleft, hright⟩ := List.map_eq_append_iff.mp hother
    obtain ⟨t, right, rfl, ht, hright⟩ := List.map_eq_cons_iff.mp hright
    obtain ⟨b', hb'⟩ := ihb left hleft
    obtain ⟨e', he'⟩ := ihe right hright
    exact ⟨_, .raised hb' (ht.trans h) he'⟩
  | unsigned h ih =>
    intro other hother
    obtain ⟨tree', h'⟩ := ih other hother
    exact ⟨tree', .unsigned h'⟩
  | signed h power ih =>
    intro other hother
    obtain ⟨t, rest, rfl, ht, hrest⟩ := List.map_eq_cons_iff.mp hother
    obtain ⟨tree', h'⟩ := ih rest hrest
    exact ⟨_, .signed (ht ▸ h) h'⟩
  | operand joins h ih =>
    intro other hother
    obtain ⟨tree', h'⟩ := ih other hother
    exact ⟨tree', .operand joins h'⟩
  | joined joins left h right ihl ihr =>
    intro other hother
    rw [List.map_append] at hother
    obtain ⟨lefts, rights, rfl, hlefts, hrights⟩ := List.map_eq_append_iff.mp hother
    obtain ⟨t, rights, rfl, ht, hrights⟩ := List.map_eq_cons_iff.mp hrights
    obtain ⟨l', hl'⟩ := ihl lefts hlefts
    obtain ⟨r', hr'⟩ := ihr rights hrights
    exact ⟨_, .joined joins hl' (ht ▸ h) hr'⟩

theorem sentence_map_iff {tokens : List Located} :
    Sentence (tokens.map Located.token) ↔ ∃ tree, Derives .expression tokens tree := by
  constructor
  · rintro ⟨located, tree, hlocated, h⟩
    exact h.relocate tokens hlocated.symm
  · rintro ⟨tree, h⟩
    exact ⟨tokens, tree, rfl, h⟩

theorem viable_map_iff {tokens : List Located} :
    Viable (tokens.map Located.token) ↔ ∃ more tree, Derives .expression (tokens ++ more) tree := by
  constructor
  · rintro ⟨more, hsentence⟩
    have hmore : tokens.map Located.token ++ more =
        (tokens ++ more.map (Located.mk · 0)).map Located.token := by
      simp [List.map_map, Function.comp_def]
    rw [hmore, sentence_map_iff] at hsentence
    exact ⟨_, hsentence⟩
  · rintro ⟨more, tree, h⟩
    refine ⟨more.map Located.token, ?_⟩
    rw [← List.map_append]
    exact sentence_map_iff.mpr ⟨tree, h⟩

theorem Viable.of_append {tokens more : List Token} (h : Viable (tokens ++ more)) :
    Viable tokens := by
  obtain ⟨behind, hsentence⟩ := h
  exact ⟨more ++ behind, by rwa [← List.append_assoc]⟩

namespace Fails

variable {known wider : String → Bool} {ending other : Ending} {n : Nat} {phrase : Phrase}
  {pre rest rest' : List Located} {e : EvalError}

/-- What was read can be completed: an operand, and the brackets that are open. -/
theorem completes (h : Fails known ending n phrase pre rest e) :
    ∃ more tree, Derives phrase (pre ++ more) tree := by
  have hoperand : Derives .atom [⟨.number 0, 0⟩] (.number 0) := .number rfl
  have hclose : (⟨.symbol .rparen, 0⟩ : Located).token = .symbol .rparen := rfl
  induction h with
  | operand h => exact ⟨_, _, hoperand⟩
  | unknown h hname => exact ⟨_, _, hoperand⟩
  | tooDeep h => exact ⟨_, _, hoperand⟩
  | @number n t value e h hending => exact ⟨[], .number value, .number h⟩
  | @group n l pre rest e hl h ih =>
    obtain ⟨more, tree, h'⟩ := ih
    have hgroup := Derives.group hl h' hclose
    rw [List.append_assoc, ← List.cons_append] at hgroup
    exact ⟨_, _, hgroup⟩
  | unclosed hl h hstops hadvance hr => exact ⟨_, _, .group hl h.derives hclose⟩
  | closed hl h hr hending =>
    have hgroup := Derives.group hl h.derives hr
    rw [← List.append_nil (_ :: _)] at hgroup
    exact ⟨_, _, hgroup⟩
  | @call n t name pre rest e ht hname h ih =>
    obtain ⟨more, tree, h'⟩ := ih
    exact ⟨more, .call t.position name tree, .call ht h'⟩
  | base h ih =>
    obtain ⟨more, tree, h'⟩ := ih
    exact ⟨more, tree, .base h'⟩
  | @tooHigh t tokens rest b hbase ht hadvance =>
    refine ⟨[], b, ?_⟩
    rw [List.append_nil]
    exact .base hbase.derives
  | @caret t tokens b e hbase ht hending =>
    have hraised := Derives.raised hbase.derives ht (.base hoperand)
    rw [← List.singleton_append, ← List.append_assoc] at hraised
    exact ⟨_, _, hraised⟩
  | @exponent n t tokens pre rest b e hbase ht h ih =>
    obtain ⟨more, tree, h'⟩ := ih
    have hraised := Derives.raised hbase.derives ht h'
    rw [← List.cons_append, ← List.append_assoc] at hraised
    exact ⟨_, _, hraised⟩
  | unsigned hsign h ih =>
    obtain ⟨more, tree, h'⟩ := ih
    exact ⟨more, tree, .unsigned h'⟩
  | @signed n t sign pre rest e ht h ih =>
    obtain ⟨more, tree, h'⟩ := ih
    exact ⟨more, .signed sign tree, .signed ht h'⟩
  | first joins h ih =>
    obtain ⟨more, tree, h'⟩ := ih
    exact ⟨more, tree, .operand joins h'⟩
  | further joins hleft ht h ih =>
    obtain ⟨more, tree, h'⟩ := ih
    have hjoined := Derives.joined joins hleft.derives ht h'
    rw [← List.cons_append, ← List.append_assoc] at hjoined
    exact ⟨_, _, hjoined⟩

theorem cause_of_cons (h : Fails known ending n phrase pre rest e) (hrest : rest ≠ []) :
    e.cause.blamesToken = true ∨ (∃ name, e.cause = .unknownFunction name) ∨
      e.cause = .nestingTooDeep nestingLimit := by
  induction h with
  | @operand n rest h =>
    cases rest with
    | nil => exact absurd rfl hrest
    | cons t rest =>
      rw [Ending.operandError]
      split <;> exact .inl rfl
  | unknown h hname => exact .inr (.inl ⟨_, rfl⟩)
  | tooDeep h => exact .inr (.inr rfl)
  | number h hending => exact absurd rfl hrest
  | group hl h ih => exact ih hrest
  | @unclosed n l tokens rest inside hl h hstops hadvance hr =>
    cases rest with
    | nil => exact absurd rfl hrest
    | cons t rest => exact .inl rfl
  | closed hl h hr hending => exact absurd rfl hrest
  | call ht hname h ih => exact ih hrest
  | base h ih => exact ih hrest
  | tooHigh hbase ht hadvance => exact .inr (.inr rfl)
  | caret hbase ht hending => exact absurd rfl hrest
  | exponent hbase ht h ih => exact ih hrest
  | unsigned hsign h ih => exact ih hrest
  | signed ht h ih => exact ih hrest
  | first joins h ih => exact ih hrest
  | further joins hleft ht h ih => exact ih hrest

/-- Only the first token behind what was read matters, and a failure does not go away with more
names and levels, unless it was for want of them. In front of an exponent, also what stands behind
the operator has to be there. -/
theorem elsewhere (h : Fails known ending n phrase pre rest e) {slack : Nat}
    (hname : ∀ name, e.cause = .unknownFunction name → wider name = false)
    (hlevel : e.cause = .nestingTooDeep nestingLimit → slack = 0 ∧
      ∀ t behind, rest' = t :: behind → t.token = .symbol .caret →
        other.advance behind = .ok behind)
    (hwider : ∀ name, known name = true → wider name = true)
    (hhead : rest'.head? = rest.head?) (hending : rest = [] → other = ending) :
    Fails wider other (n + slack) phrase pre rest' e := by
  induction h with
  | @operand n rest h =>
    rw [← Ending.operandError_congr hhead hending]
    exact .operand (by rwa [hhead])
  | unknown h hunknown =>
    obtain ⟨behind, rfl⟩ := List.head?_eq_some_iff.mp hhead
    exact .unknown h (hname _ rfl)
  | tooDeep h =>
    obtain ⟨behind, rfl⟩ := List.head?_eq_some_iff.mp hhead
    obtain ⟨rfl, -⟩ := hlevel rfl
    exact .tooDeep (h.imp_right fun ⟨name, ht, hknown⟩ => ⟨name, ht, hwider name hknown⟩)
  | number h hfault =>
    obtain rfl := List.head?_eq_none_iff.mp hhead
    exact .number h ((hending rfl).trans hfault)
  | @group n l pre rest e hl h ih =>
    rw [Nat.add_right_comm]
    exact .group hl (ih hname hlevel hhead hending)
  | unclosed hl h hstops hadvance hr =>
    rw [← Ending.bracketError_congr hhead hending, Nat.add_right_comm]
    exact .unclosed hl (h.mono hwider (Nat.le_add_right _ _)) (hstops.congr hhead)
      (Ending.advance_congr hhead hending hadvance) (by rwa [hhead])
  | closed hl h hr hfault =>
    obtain rfl := List.head?_eq_none_iff.mp hhead
    rw [Nat.add_right_comm]
    exact .closed hl (h.mono hwider (Nat.le_add_right _ _)) hr ((hending rfl).trans hfault)
  | call ht hknown h ih =>
    rw [Nat.add_right_comm]
    exact .call ht (hwider _ hknown) (ih hname hlevel hhead hending)
  | base h ih => exact .base (ih hname hlevel hhead hending)
  | tooHigh hbase ht hadvance =>
    obtain ⟨behind, rfl⟩ := List.head?_eq_some_iff.mp hhead
    obtain ⟨rfl, hthere⟩ := hlevel rfl
    exact .tooHigh (hbase.mono hwider (Nat.le_refl _)) ht (hthere _ _ rfl ht)
  | @caret t tokens b e hbase ht hfault =>
    obtain rfl := List.head?_eq_none_iff.mp hhead
    have hother := (hending rfl).trans hfault
    have hmore := hbase.mono hwider (Nat.le_add_right 0 slack)
    rw [Nat.zero_add] at hmore ⊢
    cases slack with
    | zero => exact .caret hmore ht hother
    | succ slack =>
      -- With a level to spare, it is the exponent that runs into the fault.
      have hoperand : Fails wider other slack .atom [] [] e := by
        subst hother
        exact .operand (by simp)
      exact .exponent hmore ht (.base hoperand)
  | exponent hbase ht h ih =>
    have hmore := hbase.mono hwider (Nat.le_add_right _ slack)
    rw [Nat.add_right_comm] at hmore ⊢
    exact .exponent hmore ht (ih hname hlevel hhead hending)
  | unsigned hsign h ih =>
    refine .unsigned ?_ (ih hname hlevel hhead hending)
    rwa [List.head?_append, hhead, ← List.head?_append]
  | signed ht h ih => exact .signed ht (ih hname hlevel hhead hending)
  | first joins h ih => exact .first joins (ih hname hlevel hhead hending)
  | further joins hleft ht h ih =>
    exact .further joins (hleft.mono hwider (Nat.le_add_right _ _)) ht
      (ih hname hlevel hhead hending)

/-- A failure that blames a token, or the end of the tokens, rules out every phrase. -/
theorem not_derives (h : Fails known ending n phrase pre rest e)
    (hname : ∀ name, e.cause ≠ .unknownFunction name)
    (hlevel : e.cause ≠ .nestingTooDeep nestingLimit) (hhead : rest'.head? = rest.head?)
    (hending : rest = [] → ∃ position, ending = .finish position) (tree : Expr) :
    ¬ Derives phrase (pre ++ rest') tree := by
  intro hderives
  obtain ⟨position, hposition⟩ : ∃ position, rest = [] → .finish position = ending := by
    by_cases hrest : rest = []
    · obtain ⟨position, rfl⟩ := hending hrest
      exact ⟨position, fun _ => rfl⟩
    · exact ⟨0, fun hnil => absurd hnil hrest⟩
  -- Under all names and enough levels the tokens would both fail and be read to their end.
  have hread := hderives.reader_building (Nat.le_add_left _ n) position
  have hfails : Fails (fun _ => true) (.finish position) (n + (pre ++ rest').length) phrase pre
      rest' e :=
    h.elsewhere (fun name hcause => absurd hcause (hname name))
      (fun hcause => absurd hcause hlevel) (fun _ _ => rfl) hhead hposition
  rcases Meaning.reader_of_fails (Expr.building_knows fun _ => true) hfails with he | ⟨d, hd, -⟩
  · rw [hread] at he
    cases he
  · obtain ⟨t, -, op, a, b, -, hcombine⟩ := hd
    cases hcombine

end Fails

namespace Input.Rejects

variable {known : String → Bool} {ending : Ending} {pre rest : List Located} {t : Located}
  {e : EvalError}

/-- What stands in front of the place of rejection can be completed. -/
theorem viable (h : Rejects known ending pre rest e) : Viable (pre.map Located.token) := by
  refine viable_map_iff.mpr ?_
  cases h with
  | inside h => exact h.completes
  | behind h hstops => exact ⟨[], _, by rw [List.append_nil]; exact h.derives⟩

theorem cause_of_cons (h : Rejects known ending pre (t :: rest) e) :
    e.cause.blamesToken = true ∨ (∃ name, e.cause = .unknownFunction name) ∨
      e.cause = .nestingTooDeep nestingLimit := by
  cases h with
  | inside h => exact h.cause_of_cons (List.cons_ne_nil t rest)
  | behind h hstops =>
    left
    rw [Located.behindError]
    split <;> rfl

/-- Nothing that goes on with the blamed token is an expression. -/
theorem not_viable (h : Rejects known ending pre (t :: rest) e)
    (hblames : e.cause.blamesToken = true) :
    ¬ Viable (pre.map Located.token ++ [t.token]) := by
  have hpre : pre.map Located.token ++ [t.token] = (pre ++ [t]).map Located.token := by simp
  rw [hpre, viable_map_iff]
  rintro ⟨more, tree, hderives⟩
  rw [List.append_assoc, List.singleton_append] at hderives
  have hhead : (t :: more).head? = (t :: rest).head? := rfl
  cases h with
  | inside h =>
    refine h.not_derives ?_ ?_ hhead nofun tree hderives
    · intro name hname
      simp [hname, Cause.blamesToken] at hblames
    · intro hlevel
      simp [hlevel, Cause.blamesToken] at hblames
  | behind h hstops =>
    -- The expression ends in front of the token, so reading on would stop there.
    have hread := hderives.reader_building (Nat.le_max_right nestingLimit _) 0
    have hleft := h.mono (fun _ _ => rfl) (Nat.le_max_left nestingLimit (pre ++ t :: more).length)
    rw [Meaning.reader_of_admits (Expr.building_knows fun _ => true) hleft
      (Phrase.Clear.congr hstops hhead) (Ending.advance_cons _ t more),
      Expr.denote_building hleft.derives hleft.names] at hread
    cases hread

theorem not_sentence {position : Nat} (h : Rejects known (.finish position) pre [] e) :
    ¬ Sentence (pre.map Located.token) := by
  obtain rfl := h.located.2 rfl
  rw [sentence_map_iff]
  rintro ⟨tree, hderives⟩
  rw [← List.append_nil pre] at hderives
  cases h with
  | inside h => exact h.not_derives nofun nofun rfl (fun _ => ⟨position, rfl⟩) tree hderives

end Input.Rejects

end Reckoner

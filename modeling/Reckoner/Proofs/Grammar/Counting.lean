import Reckoner.Proofs.Grammar.Calls
import Reckoner.Proofs.Grammar.Openings
import Reckoner.Proofs.Grammar.Reading

/-!
# What the counter counts

A parser with a counter is followed step by step along the reader of the same phrase. Main
statement: both read the same, and all that is recorded on the way is sound, so the counter always
tells how many levels the tokens that were read have open.
-/
namespace Reckoner.Counter

variable {V : Type}

/-- The token that opens the level that a production runs in, if it is not read yet. -/
def Production.opener : Production → List Located → List Located
  | grouping, rest | functionCall, rest => rest.take 1
  | _, _ => []

/-- What a record of reading the tokens may say: at each call of a production the counter is the
number of levels that are open, it is never set outside of its bounds, and a production that has a
value leaves it as it was. -/
def Event.Sound (tokens : List Located) : Event → Prop
  | fetch => True
  | counter depth => 0 ≤ depth ∧ depth ≤ nestingLimit
  | call production place => ∃ pre, pre ++ place.rest = tokens ∧
      place.depth = (openings (pre ++ production.opener place.rest)).length ∧
      place.depth ≤ nestingLimit
  | value _ before after => after.depth = before.depth

/-- The second state is reached from the first with the counter as it was, and all that was recorded
on the way is sound. -/
structure Follows (tokens : List Located) (s s' : State) : Prop where
  depth : s'.depth = s.depth
  log : ∃ more, s'.log = s.log ++ more ∧ ∀ e ∈ more, e.Sound tokens

/-- A parser ends as a reader does that says which tokens remain. -/
inductive Agrees (tokens : List Located) (s : State) :
    Except EvalError (V × List Located) → EStateM.Result EvalError State V → Prop where
  | ok {v : V} {rest : List Located} {s' : State} (hrest : s'.rest = rest)
      (h : Follows tokens s s') : Agrees tokens s (.ok (v, rest)) (.ok v s')
  | error {e : EvalError} {s' : State} (h : Follows tokens s s') :
      Agrees tokens s (.error e) (.error e s')

/-- The tokens `pre` are read, and `n` more levels may be opened. -/
structure Stands (tokens pre : List Located) (n : Nat) (place : Place) : Prop where
  split : pre ++ place.rest = tokens
  depth : place.depth = (openings pre).length
  levels : (openings pre).length + n = nestingLimit

section Steps

variable {tokens pre rest : List Located} {s s' s'' : State} {n : Nat} {t : Located}
  {production : Production} {event : Event} {e : EvalError}

theorem Follows.refl (tokens : List Located) (s : State) : Follows tokens s s :=
  ⟨rfl, [], (List.append_nil _).symm, nofun⟩

theorem Follows.trans (h : Follows tokens s s') (h' : Follows tokens s' s'') :
    Follows tokens s s'' := by
  obtain ⟨more, hmore, hsound⟩ := h.log
  obtain ⟨more', hmore', hsound'⟩ := h'.log
  refine ⟨h'.depth.trans h.depth, more ++ more', ?_, ?_⟩
  · rw [hmore', hmore, List.append_assoc]
  · exact List.forall_mem_append.mpr ⟨hsound, hsound'⟩

theorem Follows.record (h : Follows tokens s s') (hevent : event.Sound tokens) :
    Follows tokens s (s'.record event) :=
  h.trans ⟨rfl, [event], rfl, by simpa using hevent⟩

theorem Follows.deeper (h : Follows tokens (s.move 1) s') (hpos : 0 ≤ s.depth)
    (hlt : s.depth < nestingLimit) : Follows tokens s (s'.move (-1)) := by
  obtain ⟨more, hmore, hsound⟩ := h.log
  have hdepth : s'.depth + -1 = s.depth := by
    rw [h.depth]
    exact Int.add_neg_cancel_right s.depth 1
  refine ⟨hdepth, .counter (s.depth + 1) :: (more ++ [.counter (s'.depth + -1)]), ?_, ?_⟩
  · change s'.log ++ _ = _
    rw [hmore, State.move, State.record, List.append_assoc, List.append_assoc]
    rfl
  · simp only [List.forall_mem_cons, List.forall_mem_append, Event.Sound, hdepth]
    exact ⟨by omega, hsound, by omega, nofun⟩

theorem Stands.depth_nonneg {place : Place} (h : Stands tokens pre n place) : 0 ≤ place.depth := by
  rw [h.depth]
  exact Int.natCast_nonneg _

theorem Stands.depth_le {place : Place} (h : Stands tokens pre n place) :
    place.depth ≤ nestingLimit := by
  have hdepth := h.depth
  have hlevels := h.levels
  omega

theorem Stands.deeper_le {place place' : Place} (h : Stands tokens pre (n + 1) place)
    (hdepth' : place'.depth = place.depth + 1) : place'.depth ≤ nestingLimit := by
  have hdepth := h.depth
  have hlevels := h.levels
  omega

theorem Stands.sound_call {place : Place} (h : Stands tokens pre n place)
    (hopener : production.opener place.rest = []) : (Event.call production place).Sound tokens := by
  have hdepth := h.depth
  have hlevels := h.levels
  refine ⟨pre, h.split, ?_, by omega⟩
  rw [hopener, List.append_nil, hdepth]

theorem Stands.sound_opened {place : Place} (h : Stands tokens pre (n + 1) place)
    (hopener : production.opener place.rest = [t]) (hopens : t.token.opens = true) :
    (Event.call production { place with depth := place.depth + 1 }).Sound tokens := by
  have hdepth := h.depth
  have hlevels := h.levels
  refine ⟨pre, h.split, ?_, by simp only [hdepth]; omega⟩
  simp only [hopener, length_openings_of_opens hopens, hdepth, Int.natCast_add, Int.natCast_one]

theorem Stands.next {k : Nat} {place place' : Place} (h : Stands tokens pre n place)
    (hrest : place.rest = t :: rest) (hrest' : place'.rest = rest)
    (hdepth : place'.depth = (openings (pre ++ [t])).length)
    (hlevels : (openings (pre ++ [t])).length + k = (openings pre).length + n) :
    Stands tokens (pre ++ [t]) k place' := by
  refine ⟨?_, hdepth, hlevels.trans h.levels⟩
  rw [hrest', List.append_assoc, List.singleton_append, ← hrest, h.split]

theorem Stands.opened {place place' : Place} (h : Stands tokens pre (n + 1) place)
    (hrest : place.rest = t :: rest) (hrest' : place'.rest = rest)
    (hdepth : place'.depth = place.depth + 1) (hopens : t.token.opens = true) :
    Stands tokens (pre ++ [t]) n place' := by
  have hlength : (openings (pre ++ [t])).length = _ := length_openings_of_opens hopens
  refine h.next hrest hrest' ?_ (by omega)
  rw [hdepth, h.depth, hlength]
  rfl

variable {x : Except EvalError (V × List Located)} {W : Type} {p : Parser V} {g : V → Parser W}
  {v : V}

theorem Agrees.weaken (h : Follows tokens s s') {r : EStateM.Result EvalError State V}
    (h' : Agrees tokens s' x r) : Agrees tokens s x r := by
  cases h' with
  | ok hrest h' => exact .ok hrest (h.trans h')
  | error h' => exact .error (h.trans h')

theorem Agrees.bind {f : V × List Located → Except EvalError (W × List Located)}
    (h : Agrees tokens s x (p.run s))
    (hnext : ∀ v s', x = .ok (v, s'.rest) → Follows tokens s s' →
      Agrees tokens s' (f (v, s'.rest)) ((g v).run s')) :
    Agrees tokens s (x >>= f) ((p >>= g).run s) := by
  generalize hp : p.run s = r at h
  cases h with
  | ok hrest h =>
    subst hrest
    rw [bind_of_ok hp]
    exact (hnext _ _ rfl h).weaken h
  | error h =>
    rw [bind_of_error hp]
    exact .error h

theorem Agrees.call (hcall : (Event.call production s.toPlace).Sound tokens)
    (hbody : ∀ s', s'.toPlace = s.toPlace → Agrees tokens s' x (p.run s')) :
    Agrees tokens s x ((call production p).run s) := by
  have hfollows := (Follows.refl tokens s).record hcall
  have h := hbody (s.record (.call production s.toPlace)) rfl
  rw [run_call]
  generalize p.run (s.record (.call production s.toPlace)) = r at h
  cases h with
  | ok hrest h => exact .ok hrest ((hfollows.trans h).record h.depth)
  | error h => exact .error (hfollows.trans h)

theorem Agrees.advance {ending : Ending} {f : List Located → Except EvalError (V × List Located)}
    {g : Unit → Parser V} (hrest : s.rest = t :: rest)
    (hnext : ∀ s', s'.rest = rest → Follows tokens s s' →
      Agrees tokens s' (f rest) ((g ()).run s')) :
    Agrees tokens s (ending.advance rest >>= f) ((Counter.advance ending >>= g).run s) := by
  have hfetch : Follows tokens s (s.record .fetch) := (Follows.refl tokens s).record trivial
  have hadvance := run_advance ending s
  rw [hrest, List.tail_cons] at hadvance
  rcases ending.advance_ok_or_fault rest with hok | ⟨rfl, e, rfl⟩
  · rw [hok] at hadvance ⊢
    rw [ok_bind, bind_of_ok hadvance]
    have hfollows : Follows tokens s { s.record .fetch with rest } := ⟨hfetch.depth, hfetch.log⟩
    exact (hnext _ rfl hfollows).weaken hfollows
  · rw [bind_of_error hadvance]
    exact .error hfetch

theorem Agrees.ofExcept (result : Except EvalError V) :
    Agrees tokens s (result >>= fun v => .ok (v, s.rest))
      (EStateM.run (MonadExcept.ofExcept result) s) := by
  cases result with
  | ok v => exact .ok rfl (Follows.refl tokens s)
  | error e => exact .error (Follows.refl tokens s)

theorem Agrees.deeper {position : Nat} (hpos : 0 ≤ s.depth) (hlt : s.depth < nestingLimit)
    (h : Agrees tokens (s.move 1) x (p.run (s.move 1))) :
    Agrees tokens s x ((Counter.nested position p).run s) := by
  generalize hp : p.run (s.move 1) = r at h
  cases h with
  | ok hrest h =>
    rw [nested_of_ok hlt hp]
    exact .ok hrest (h.deeper hpos hlt)
  | error h =>
    rw [nested_of_error hlt hp]
    exact .error (h.deeper hpos hlt)

theorem Agrees.nested {m : Meaning V} {ending : Ending} {position : Nat}
    {f : Level V → Except EvalError (V × List Located)} {place : Place}
    (hs : Stands tokens pre n place) (hsame : s.depth = place.depth)
    (hbody : ∀ k level, n = k + 1 → Meaning.inside m ending (k + 1) = some level → ∀ s',
      s'.toPlace = { s.toPlace with depth := s.depth + 1 } →
      Agrees tokens s' (f level) (p.run s')) :
    Agrees tokens s (Meaning.enter (Meaning.inside m ending n) position >>= f)
      ((Counter.nested position p).run s) := by
  have hdepth := hsame.trans hs.depth
  have hlevels := hs.levels
  cases n with
  | zero =>
    rw [nested_of_full (by omega)]
    exact .error (Follows.refl tokens s)
  | succ k =>
    exact Agrees.deeper (by omega) (by omega) (hbody k _ rfl rfl _ rfl)

end Steps

section Agreement

variable {m : Meaning V} {ending : Ending} {spent : Call V → Parser V}
  {tokens pre rest : List Located} {known : String → Bool} {n budget : Nat}
  {phrase operand : Phrase} {tier : Tier} {t : Located}

theorem reader_enter_group (h : t.token = .symbol .lparen) :
    m.reader ending n .atom (t :: rest) =
      Meaning.enter (Meaning.inside m ending n) t.position >>= fun level =>
        ending.advance rest >>= fun rest => level.expression rest >>= fun p =>
          Meaning.close ending p.2 >>= fun rest => .ok (m.group p.1, rest) := by
  rw [Meaning.reader, Meaning.atom, h]
  rfl

theorem reader_enter_call {name : String} {apply : V → V} (h : t.token = .identifier name)
    (hcall : m.call? t.position name = some apply) :
    m.reader ending n .atom (t :: rest) =
      Meaning.enter (Meaning.inside m ending n) t.position >>= fun level =>
        ending.advance rest >>= fun rest => level.atom rest >>= fun p =>
          .ok (apply p.1, p.2) := by
  rw [Meaning.reader, Meaning.atom, h]
  simp only [hcall]
  rfl

/-- Where a phrase fits and `n` more levels may be opened, its production ends as its reader does,
as far as the budget goes. -/
def ParserAgrees (m : Meaning V) (ending : Ending) (spent : Call V → Parser V)
    (tokens : List Located) (n : Nat) (phrase : Phrase) : Prop :=
  ∀ budget pre s, Suffices budget ⟨production phrase, s.toPlace⟩ → Stands tokens pre n s.toPlace →
    phrase.Fits (openings pre) → Agrees tokens s (m.reader ending n phrase s.rest)
      ((perform m ending spent budget (.phrase phrase)).run s)

theorem parserAgrees_of_body (h : ∀ budget pre s,
      Suffices (budget + 1) ⟨production phrase, s.toPlace⟩ → Stands tokens pre n s.toPlace →
      phrase.Fits (openings pre) → Agrees tokens s (m.reader ending n phrase s.rest)
        ((body m ending (perform m ending spent budget) (.phrase phrase)).run s)) :
    ParserAgrees m ending spent tokens n phrase := by
  intro budget pre s hbudget hs hfits
  obtain ⟨budget, rfl⟩ := hbudget.exists_budget hs.depth_le
  have hopener : (production phrase).opener s.rest = [] := by cases phrase <;> rfl
  refine Agrees.call (hs.sound_call hopener) fun s' hs' => ?_
  rw [← hs'] at hbudget hs ⊢
  exact h budget pre s' hbudget hs hfits

/-- A production that runs in the level that the next token opens, and starts behind it. -/
theorem agrees_opened {production : Production} {s s' : State}
    {f : List Located → Except EvalError (V × List Located)} {g : Unit → Parser V}
    (hs : Stands tokens pre (n + 1) s.toPlace) (hrest : s.rest = t :: rest)
    (hs' : s'.toPlace = { s.toPlace with depth := s.depth + 1 })
    (hopens : t.token.opens = true) (hopener : production.opener (t :: rest) = [t])
    (hnext : ∀ s₁, s₁.rest = rest → s₁.depth = s'.depth →
      Stands tokens (pre ++ [t]) n s₁.toPlace → Agrees tokens s₁ (f rest) ((g ()).run s₁)) :
    Agrees tokens s' (ending.advance rest >>= f)
      ((call production (advance ending >>= g)).run s') := by
  rw [← hrest] at hopener
  refine Agrees.call ?_ fun s₁ hs₁ => ?_
  · rw [hs']
    exact hs.sound_opened hopener hopens
  have hdepth₁ : s₁.depth = s'.depth := by rw [hs₁]
  refine Agrees.advance (by rw [hs₁, hs', hrest]) fun s₂ hrest₂ hfollows₂ => ?_
  have hdepth₂ := hfollows₂.depth.trans hdepth₁
  exact hnext s₂ hrest₂ hdepth₂ (hs.opened hrest hrest₂ (hdepth₂.trans (by rw [hs'])) hopens)

theorem agrees_grouping {s s' : State} (inner : ParserAgrees m ending spent tokens n .expression)
    (hbudget : Suffices budget ⟨.grouping, s'.toPlace⟩)
    (hs : Stands tokens pre (n + 1) s.toPlace) (hrest : s.rest = t :: rest)
    (hs' : s'.toPlace = { s.toPlace with depth := s.depth + 1 })
    (ht : t.token = .symbol .lparen) :
    Agrees tokens s' (ending.advance rest >>= fun rest =>
      m.reader ending n .expression rest >>= fun p =>
        Meaning.close ending p.2 >>= fun rest => .ok (m.group p.1, rest))
      ((perform m ending spent budget .grouping).run s') := by
  obtain ⟨budget, rfl⟩ := hbudget.exists_budget (hs.deeper_le (by rw [hs']))
  refine agrees_opened hs hrest hs' (by rw [ht]; rfl) rfl fun s₁ hrest₁ hdepth₁ hs₁ => ?_
  subst hrest₁
  have hopened : openings (pre ++ [t]) = .group :: openings pre := by
    rw [openings_concat, ht]
    rfl
  have hinside := inner budget _ s₁ (hbudget.next hdepth₁ (by decide)) hs₁
    (by simp [Phrase.Fits, hopened])
  refine hinside.bind fun v s₂ hv hfollows₂ => ?_
  rw [run_get_bind]
  cases hrest₂ : s₂.rest with
  | nil => exact .error (Follows.refl tokens s₂)
  | cons r rest =>
    by_cases hr : r.token = .symbol .rparen
    · simp only [Meaning.close, if_pos hr]
      exact Agrees.advance hrest₂ fun s₃ hrest₃ _ => .ok hrest₃ (Follows.refl tokens s₃)
    · simp only [Meaning.close, if_neg hr]
      exact .error (Follows.refl tokens s₂)

theorem agrees_functionCall {s s' : State} {name : String} {apply : V → V}
    (inner : ParserAgrees m ending spent tokens n .atom)
    (hbudget : Suffices budget ⟨.functionCall, s'.toPlace⟩)
    (hs : Stands tokens pre (n + 1) s.toPlace) (hrest : s.rest = t :: rest)
    (hs' : s'.toPlace = { s.toPlace with depth := s.depth + 1 })
    (ht : t.token = .identifier name) :
    Agrees tokens s' (ending.advance rest >>= fun rest =>
      m.reader ending n .atom rest >>= fun p => .ok (apply p.1, p.2))
      ((perform m ending spent budget (.functionCall apply)).run s') := by
  obtain ⟨budget, rfl⟩ := hbudget.exists_budget (hs.deeper_le (by rw [hs']))
  refine agrees_opened hs hrest hs' (by rw [ht]; rfl) rfl fun s₁ hrest₁ hdepth₁ hs₁ => ?_
  subst hrest₁
  exact (inner budget _ s₁ (hbudget.next hdepth₁ (by decide)) hs₁ trivial).bind
    fun v s₂ hv hfollows₂ => .ok rfl (Follows.refl tokens s₂)

theorem agrees_atom (inner : ∀ k < n, ∀ phrase, ParserAgrees m ending spent tokens k phrase) :
    ParserAgrees m ending spent tokens n .atom := by
  refine parserAgrees_of_body fun budget pre s hbudget hs hfits => ?_
  rw [body, atom, run_get_bind]
  cases hrest : s.rest with
  | nil => exact .error (Follows.refl tokens s)
  | cons t rest =>
    simp only
    cases ht : t.token with
    | number value =>
      rw [Meaning.reader_number ht]
      exact Agrees.advance hrest fun s₁ hrest₁ _ => .ok hrest₁ (Follows.refl tokens s₁)
    | identifier name =>
      cases hcall : m.call? t.position name with
      | none =>
        simp only [Meaning.reader_unknown ht hcall, hcall]
        exact .error (Follows.refl tokens s)
      | some apply =>
        simp only [reader_enter_call ht hcall, hcall]
        refine Agrees.nested hs rfl fun k level hn hlevel s₁ hs₁ => ?_
        subst hn
        cases hlevel
        exact agrees_functionCall (inner k k.lt_succ_self .atom) (hbudget.deeper (by rw [hs₁]))
          hs hrest hs₁ ht
    | symbol symbol =>
      cases symbol with
      | lparen =>
        rw [reader_enter_group ht]
        refine Agrees.nested hs rfl fun k level hn hlevel s₁ hs₁ => ?_
        subst hn
        cases hlevel
        exact agrees_grouping (inner k k.lt_succ_self .expression)
          (hbudget.deeper (by rw [hs₁])) hs hrest hs₁ ht
      | _ =>
        rw [Meaning.reader_operandError (by simp [ht, Token.startsAtom])]
        simp only [Ending.operandError, ht]
        exact .error (Follows.refl tokens s)

variable (hm : m.Knows known)
include hm

theorem Stands.behind {s s' : State} {v : V}
    (hs : Stands tokens pre n s.toPlace)
    (hread : m.reader ending n phrase s.rest = .ok (v, s'.rest)) :
    ∃ used tree, Derives phrase used tree ∧ pre ++ used ++ s'.rest = tokens := by
  obtain ⟨used, tree, hused, hadmits, -, -⟩ := Meaning.derivation_of_reader hm hread
  exact ⟨used, tree, hadmits.derives, by rw [List.append_assoc, hused, hs.split]⟩

theorem agrees_power (inner : ∀ k < n, ∀ phrase, ParserAgrees m ending spent tokens k phrase)
    (hatom : ParserAgrees m ending spent tokens n .atom) :
    ParserAgrees m ending spent tokens n .power := by
  refine parserAgrees_of_body fun budget pre s hbudget hs hfits => ?_
  have hbase := hatom budget pre s (hbudget.next rfl (by decide)) hs trivial
  refine hbase.bind fun base s₁ hbase hfollows₁ => ?_
  have hbase : m.reader ending n .atom s.rest = .ok (base, s₁.rest) := hbase
  obtain ⟨used, tree, hderives, hsplit⟩ := hs.behind hm hbase
  have hopenings : openings (pre ++ used) = openings pre := by
    rw [openings, Opening.through_append]
    exact through_of_base hderives hfits
  have hs₁ : Stands tokens (pre ++ used) n s₁.toPlace :=
    ⟨hsplit, by rw [hopenings, hfollows₁.depth, hs.depth], by rw [hopenings, hs.levels]⟩
  rw [run_get_bind]
  cases hrest : s₁.rest with
  | nil => exact .ok hrest (Follows.refl tokens s₁)
  | cons t rest =>
    by_cases ht : t.token = .symbol .caret
    · simp only [if_pos ht]
      refine Agrees.advance hrest fun s₂ hrest₂ hfollows₂ => ?_
      subst hrest₂
      rw [← bind_assoc]
      refine Agrees.bind (Agrees.nested hs₁ hfollows₂.depth fun k level hn hlevel s₃ hs₃ => ?_)
        fun exponent s₄ hexponent hfollows₄ => Agrees.ofExcept _
      subst hn
      cases hlevel
      have hdepth₃ : s₃.depth = s₁.depth + 1 := by
        rw [hs₃, hfollows₂.depth]
      have hrest₃ : s₃.rest = s₂.rest := by rw [hs₃]
      rw [← hrest₃]
      refine inner k k.lt_succ_self .power budget _ s₃
        (hbudget.deeper (by rw [hdepth₃, hfollows₁.depth]))
        (hs₁.opened hrest hrest₃ hdepth₃ (by rw [ht]; rfl)) ?_
      rw [openings_concat, ht]
      simp [Phrase.Fits, Opening.step]
    · simp only [if_neg ht]
      exact .ok hrest (Follows.refl tokens s₁)

omit hm in
theorem agrees_signedFactor (hpower : ParserAgrees m ending spent tokens n .power) :
    ParserAgrees m ending spent tokens n .signedFactor := by
  refine parserAgrees_of_body fun budget pre s hbudget hs hfits => ?_
  rw [body, signedFactor, run_get_bind]
  have hfitsPower := Phrase.fits_of_group .power hfits
  have hunsigned := hpower budget pre s (hbudget.next rfl (by decide)) hs hfitsPower
  cases hrest : s.rest with
  | nil =>
    rw [hrest] at hunsigned
    exact hunsigned
  | cons t rest =>
    simp only
    cases ht : t.token.sign? with
    | none =>
      rw [hrest] at hunsigned
      rw [Meaning.reader_unsigned (by simpa using ht)]
      exact hunsigned
    | some sign =>
      rw [Meaning.reader, Meaning.signedFactor, ht]
      refine Agrees.advance hrest fun s₁ hrest₁ hfollows₁ => ?_
      have hopenings : openings (pre ++ [t]) = openings pre := by
        rw [openings_concat, step_of_sign ht hfits]
      have hs₁ : Stands tokens (pre ++ [t]) n s₁.toPlace :=
        hs.next hrest hrest₁ (by rw [hopenings, hfollows₁.depth, hs.depth]) (by rw [hopenings])
      subst hrest₁
      exact (hpower budget _ s₁ (hbudget.next hfollows₁.depth (by decide)) hs₁
        (hopenings ▸ hfitsPower)).bind fun v s₂ hv _ => .ok rfl (Follows.refl tokens s₂)

/-- Behind some operands, the parser goes on as the reader does. -/
theorem agrees_chain (joins : Phrase.Joins phrase tier operand) (hne : operand ≠ .atom)
    {opened : List Opening} {p : Parser V} (hoperand : ∀ pre s, openings pre = opened →
      Stands tokens pre n s.toPlace → Agrees tokens s (m.reader ending n operand s.rest) (p.run s))
    (hfits : operand.Fits opened) (hgroup : ∀ o ∈ opened.head?, o = .group)
    (hlevels : opened.length + n = nestingLimit) (clock : List Located) :
    ∀ pre exponents left s, s.rest.length ≤ clock.length → pre ++ s.rest = tokens →
      openings pre = List.replicate exponents .exponent ++ opened →
      s.depth = (opened.length : Int) →
      Agrees tokens s (m.resume ending n phrase left s.rest)
        ((chain m ending tier p clock left).run s) := by
  induction clock with
  | nil =>
    intro pre exponents left s hclock hsplit hopenings hdepth
    have hrest := List.length_eq_zero_iff.mp (Nat.le_zero.mp hclock)
    rw [hrest, Meaning.resume_of_stops (Phrase.clear_nil _)]
    exact .ok hrest (Follows.refl tokens s)
  | cons c clock ih =>
    intro pre exponents left s hclock hsplit hopenings hdepth
    rw [chain, run_get_bind]
    cases hrest : s.rest with
    | nil =>
      rw [Meaning.resume_of_stops (Phrase.clear_nil _)]
      exact .ok hrest (Follows.refl tokens s)
    | cons t rest =>
      simp only
      cases ht : Operator.ofTier? tier t.token with
      | none =>
        rw [Meaning.resume_joined joins, Meaning.chain, ht]
        exact .ok hrest (Follows.refl tokens s)
      | some op =>
        rw [Meaning.resume_cons joins ht, ← Meaning.advance_bind_reader, bind_assoc]
        refine Agrees.advance hrest fun s₁ hrest₁ hfollows₁ => ?_
        have hopened : openings (pre ++ [t]) = opened := by
          rw [openings_concat, (joins.ends ht).2, hopenings,
            Opening.dropWhile_exponents exponents hgroup]
        have hs₁ : Stands tokens (pre ++ [t]) n s₁.toPlace := by
          refine ⟨?_, ?_, ?_⟩
          · rw [List.append_assoc, List.singleton_append, hrest₁, ← hrest, hsplit]
          · rw [hopened, hfollows₁.depth, hdepth]
          · rw [hopened, hlevels]
        subst hrest₁
        refine (hoperand _ s₁ hopened hs₁).bind fun right s₂ hright hfollows₂ => ?_
        obtain ⟨used, tree, hderives, hsplit₂⟩ := hs₁.behind hm hright
        obtain ⟨more, hmore⟩ := through_of_phrase hderives hne hfits
        have hlength := Meaning.reader_length_lt n operand _ _ _ hright
        rw [hrest, List.length_cons, List.length_cons] at hclock
        simp only
        cases m.combine op t.position left right with
        | error e => exact .error (Follows.refl tokens s₂)
        | ok value =>
          refine ih _ more value s₂ (by omega) hsplit₂ ?_ ?_
          · rw [openings, Opening.through_append, ← openings, hopened, hmore]
          · rw [hfollows₂.depth, hfollows₁.depth, hdepth]

theorem agrees_joined (joins : Phrase.Joins phrase tier operand) (hne : operand ≠ .atom)
    (hoperand : ParserAgrees m ending spent tokens n operand) {s : State}
    (hbudget : Suffices (budget + 1) ⟨production phrase, s.toPlace⟩)
    (hs : Stands tokens pre n s.toPlace) (hfits : phrase.Fits (openings pre)) :
    Agrees tokens s (m.reader ending n phrase s.rest)
      ((joined m ending tier (perform m ending spent budget (.phrase operand))).run s) := by
  rw [Meaning.reader_joined joins]
  have hfitsOperand := joins.fits_operand hfits
  have hoperand (pre' : List Located) (s' : State) (hopened : openings pre' = openings pre)
      (hs' : Stands tokens pre' n s'.toPlace) :=
    hoperand budget pre' s' (hbudget.next (by rw [hs'.depth, hopened, hs.depth])
      (rank_lt_of_joins joins)) hs' (hopened ▸ hfitsOperand)
  refine (hoperand pre s rfl hs).bind fun left s₁ hleft hfollows₁ => ?_
  obtain ⟨used, tree, hderives, hsplit⟩ := hs.behind hm hleft
  obtain ⟨exponents, hexponents⟩ := through_of_phrase hderives hne hfitsOperand
  rw [run_get_bind]
  exact agrees_chain hm joins hne hoperand hfitsOperand (joins.fits_iff.mp hfits)
    hs.levels s₁.rest (pre ++ used) exponents left s₁ (Nat.le_refl _) hsplit
    (by rw [openings, Opening.through_append]; exact hexponents)
    (by rw [hfollows₁.depth, hs.depth])

theorem parserAgrees (ending : Ending) (spent : Call V → Parser V) (tokens : List Located)
    (n : Nat) (phrase : Phrase) : ParserAgrees m ending spent tokens n phrase := by
  induction n, phrase using Phrase.level_induction with
  | atom n inner => exact agrees_atom inner
  | power n inner hatom => exact agrees_power hm inner hatom
  | signedFactor n hpower => exact agrees_signedFactor hpower
  | joined n phrase tier operand joins hoperand =>
    refine parserAgrees_of_body fun budget pre s hbudget hs hfits => ?_
    cases joins with
    | expression => exact agrees_joined hm .expression (by decide) hoperand hbudget hs hfits
    | term => exact agrees_joined hm .term (by decide) hoperand hbudget hs hfits

omit hm in
theorem Agrees.outcome_eq {s : State} {x : Except EvalError (V × List Located)}
    {r : EStateM.Result EvalError State V} (h : Agrees tokens s x r) : outcome r = x := by
  cases h with
  | ok hrest h => rw [outcome, hrest]
  | error h => rfl

omit hm in
/-- Some brackets in front of the tokens open any number of levels, and every phrase fits there. -/
theorem exists_stands (phrase : Phrase) {place : Place} (hlow : 0 ≤ place.depth)
    (hlevels : place.depth + n = nestingLimit) :
    ∃ pre, Stands (pre ++ place.rest) pre n place ∧ phrase.Fits (openings pre) := by
  have hbrackets (k : Nat) :
      openings (List.replicate k ⟨.symbol .lparen, 0⟩) = List.replicate k .group := by
    induction k with
    | zero => rfl
    | succ k ih =>
      rw [List.replicate_succ', openings_concat, ih]
      rfl
  have hgroup (k : Nat) : ∀ o ∈ (List.replicate k Opening.group).head?, o = .group := by
    cases k <;> simp [List.replicate_succ]
  refine ⟨List.replicate place.depth.toNat ⟨.symbol .lparen, 0⟩, ⟨rfl, ?_, ?_⟩, ?_⟩
  · rw [hbrackets, List.length_replicate, Int.toNat_of_nonneg hlow]
  · rw [hbrackets, List.length_replicate]
    omega
  · rw [hbrackets]
    exact Phrase.fits_of_group phrase (hgroup _)

/-- Wherever the production of a phrase is called, it reads what the reader does that may open as
many more levels. -/
theorem outcome_perform (ending : Ending) (spent : Call V → Parser V) (phrase : Phrase) {s : State}
    (hlow : 0 ≤ s.depth) (hlevels : s.depth + n = nestingLimit)
    (hbudget : Suffices budget ⟨production phrase, s.toPlace⟩) :
    outcome ((perform m ending spent budget (.phrase phrase)).run s) =
      m.reader ending n phrase s.rest := by
  obtain ⟨pre, hs, hfits⟩ := exists_stands phrase hlow hlevels
  exact (parserAgrees hm ending spent _ n phrase budget pre s hbudget hs hfits).outcome_eq

omit hm in
theorem of_openingFault? {input : Input} {e : EvalError} (h : input.openingFault? = some e) :
    input.tokens = [] ∧ input.ending = .fault e := by
  rw [Input.openingFault?] at h
  split at h
  · next htokens hending => exact ⟨htokens, by rw [hending, Option.some.inj h]⟩
  · cases h

theorem agrees_whole (ending : Ending) (spent : Call V → Parser V) {s : State}
    (hbudget : maxActive ≤ budget) (hs : Stands tokens [] nestingLimit s.toPlace) :
    Agrees tokens s (m.reader ending nestingLimit .expression s.rest >>= fun p =>
      Meaning.expectEnd p.2 >>= fun _ => .ok p) ((whole m ending spent budget).run s) := by
  have hsuffices := suffices_of_maxActive hbudget .expression hs.depth_nonneg
  refine (parserAgrees hm ending spent tokens nestingLimit .expression budget [] s hsuffices hs
    nofun).bind fun v s' hv hfollows => ?_
  rw [run_get_bind]
  cases Meaning.expectEnd s'.rest with
  | ok _ => exact .ok rfl (Follows.refl tokens s')
  | error e => exact .error (Follows.refl tokens s')

/-- A budget for all levels that may be open reads every input as the reader does, with a sound
record and the counter at zero in the end. -/
theorem read_agrees (hbudget : maxActive ≤ budget) (spent : Call V → Parser V) (input : Input) :
    (read m spent budget input).1 = m.read input ∧ (read m spent budget input).2.depth = 0 ∧
      ∀ event ∈ (read m spent budget input).2.log, event.Sound input.tokens := by
  have hread : m.read input = (m.reader input.ending nestingLimit .expression input.tokens >>=
      fun p => Meaning.expectEnd p.2 >>= fun _ => .ok p) >>= fun p => .ok p.1 := by
    rw [bind_assoc]
    simp only [bind_assoc, ok_bind]
    rfl
  cases hfault : input.openingFault? with
  | some e =>
    obtain ⟨htokens, hending⟩ := of_openingFault? hfault
    rw [read, hfault, hread, htokens, hending, Meaning.reader_nil]
    exact ⟨rfl, rfl, by simp [State.start, Event.Sound]⟩
  | none =>
    have hsound {s : State} (h : Follows input.tokens (.start input.tokens) s) :
        s.depth = 0 ∧ ∀ event ∈ s.log, event.Sound input.tokens := by
      obtain ⟨more, hmore, hsound⟩ := h.log
      refine ⟨h.depth, ?_⟩
      rw [hmore]
      exact List.forall_mem_cons.mpr ⟨trivial, hsound⟩
    have hstart : Stands input.tokens [] nestingLimit (State.start input.tokens).toPlace :=
      ⟨rfl, rfl, rfl⟩
    have h : Agrees input.tokens (.start input.tokens) (m.reader input.ending nestingLimit
        .expression input.tokens >>= fun p => Meaning.expectEnd p.2 >>= fun _ => .ok p) _ :=
      agrees_whole hm input.ending spent hbudget hstart
    rw [read, hfault, hread]
    simp only
    generalize EStateM.run _ _ = r at h ⊢
    generalize (m.reader input.ending nestingLimit .expression _ >>= _) = x at h ⊢
    cases h with
    | ok hrest h => exact ⟨rfl, hsound h⟩
    | error h => exact ⟨rfl, hsound h⟩

end Agreement

end Reckoner.Counter

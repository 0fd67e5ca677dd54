import Reckoner.Proofs.Grammar.Calls

/-!
# Productions with a budget of calls

Main statement: with a budget of `maxActive` calls or more, a production that is called within the
bounds on the counter ends in the same way, whatever the budget is and whatever would happen once it
is spent; and step by step, what is recorded on the way is what a run may do.
-/
namespace Reckoner.Counter

variable {V : Type}

/-- Two parsers end alike, by steps that a run may make; for a value, at least `count` tokens are
used up, and the productions that were called are not active any more. -/
inductive InStep (count : Nat) (frames : List Frame) (s : State) :
    EStateM.Result EvalError State V → EStateM.Result EvalError State V → Prop where
  | ok {v : V} {s' : State} {log : List Event} (hlog : s'.log = s.log ++ log)
      (hsteps : Steps ⟨frames, s.toPlace⟩ log ⟨frames, s'.toPlace⟩)
      (hdepth : s'.depth = s.depth) (hcount : s'.rest.length + count ≤ s.rest.length) :
      InStep count frames s (.ok v s') (.ok v s')
  | error {e : EvalError} {s' : State} {log : List Event} {p : Progress}
      (hlog : s'.log = s.log ++ log) (hsteps : Steps ⟨frames, s.toPlace⟩ log p)
      (hdepth : s'.depth = s.depth) :
      InStep count frames s (.error e s') (.error e s')

namespace InStep

variable {frames : List Frame} {s s' : State} {p q : Parser V} {W : Type} {f g : V → Parser W}
  {count : Nat} {x y : EStateM.Result EvalError State V} {v : V} {e : EvalError}
  {production : Production}

theorem pure (v : V) : InStep 0 frames s (.ok v s) (.ok v s) :=
  .ok (List.append_nil _).symm (.nil _) rfl (Nat.le_refl _)

theorem throw (e : EvalError) : InStep (V := V) count frames s (.error e s) (.error e s) :=
  .error (List.append_nil _).symm (.nil _) rfl

theorem eq (h : InStep count frames s x y) : x = y := by
  cases h <;> rfl

theorem any (h : InStep count frames s x y) : InStep 0 frames s x y := by
  cases h with
  | ok hlog hsteps hdepth hcount => exact .ok hlog hsteps hdepth (Nat.le_of_add_right_le hcount)
  | error hlog hsteps hdepth => exact .error hlog hsteps hdepth

theorem bind (h : InStep count frames s (p.run s) (q.run s))
    (hnext : ∀ v s', s'.depth = s.depth → InStep 0 frames s' ((f v).run s') ((g v).run s')) :
    InStep count frames s ((p >>= f).run s) ((q >>= g).run s) := by
  generalize hp : p.run s = x at h
  generalize hq : q.run s = y at h
  cases h with
  | @ok v s' log hlog hsteps hdepth hcount =>
    rw [bind_of_ok hp, bind_of_ok hq]
    have h := hnext v s' hdepth
    generalize (f v).run s' = x at h
    generalize (g v).run s' = y at h
    cases h with
    | ok hlog' hsteps' hdepth' hcount' =>
      refine .ok ?_ (hsteps.append hsteps') (hdepth'.trans hdepth) (by omega)
      rw [hlog', hlog, List.append_assoc]
    | error hlog' hsteps' hdepth' =>
      refine .error ?_ (hsteps.append hsteps') (hdepth'.trans hdepth)
      rw [hlog', hlog, List.append_assoc]
  | error hlog hsteps hdepth =>
    rw [bind_of_error hp, bind_of_error hq]
    exact .error hlog hsteps hdepth

theorem get_bind {g g' : State → Parser V}
    (h : InStep count frames s ((g s).run s) ((g' s).run s)) :
    InStep count frames s ((get >>= g).run s) ((get >>= g').run s) := h

theorem ofExcept (result : Except EvalError V) :
    InStep 0 frames s (EStateM.run (MonadExcept.ofExcept result) s)
      (EStateM.run (MonadExcept.ofExcept result) s) := by
  cases result with
  | ok v => exact pure v
  | error e => exact throw e

theorem advance {ending : Ending} {t : Located} {rest : List Located} (hrest : s.rest = t :: rest) :
    InStep 1 frames s ((advance ending).run s) ((advance ending).run s) := by
  have hfetch : Steps ⟨frames, s.toPlace⟩ [.fetch] ⟨frames, ⟨rest, s.depth⟩⟩ := by
    refine .cons ?_ (.nil _)
    have hplace : s.toPlace = ⟨t :: rest, s.depth⟩ := by rw [← hrest]
    rw [hplace]
    exact .fetch
  rw [run_advance, hrest, List.tail_cons]
  rcases ending.advance_ok_or_fault rest with hok | ⟨rfl, e, rfl⟩
  · rw [hok]
    refine .ok rfl hfetch rfl ?_
    rw [hrest]
    exact Nat.le_refl _
  · exact .error rfl hfetch rfl

theorem nested {position : Nat}
    (h : s.depth < nestingLimit → ∀ s', s'.toPlace = { s.toPlace with depth := s.depth + 1 } →
      InStep count frames s' (p.run s') (q.run s')) :
    InStep count frames s ((nested position p).run s) ((nested position q).run s) := by
  rcases Int.lt_or_le s.depth nestingLimit with hlt | hfull
  · have h := h hlt (s.move 1) rfl
    generalize hp : p.run (s.move 1) = x at h
    generalize hq : q.run (s.move 1) = y at h
    have hopened : Steps ⟨frames, s.toPlace⟩ [.counter (s.depth + 1)]
        ⟨frames, (s.move 1).toPlace⟩ := .cons (.counter _) (.nil _)
    have hclosed {s' : State} {log : List Event} (hlog : s'.log = (s.move 1).log ++ log)
        (hdepth : s'.depth = s.depth + 1) :
        (s'.move (-1)).log = s.log ++ ([.counter (s.depth + 1)] ++ log ++
          [.counter (s'.depth + -1)]) ∧ (s'.move (-1)).depth = s.depth := by
      refine ⟨by simp [State.move, State.record, hlog], ?_⟩
      change s'.depth + -1 = s.depth
      rw [hdepth, Int.add_neg_cancel_right]
    cases h with
    | ok hlog hsteps hdepth hcount =>
      rw [nested_of_ok hlt hp, nested_of_ok hlt hq]
      obtain ⟨hlog, hdepth⟩ := hclosed hlog hdepth
      exact .ok hlog ((hopened.append hsteps).concat (.counter _)) hdepth hcount
    | error hlog hsteps hdepth =>
      rw [nested_of_error hlt hp, nested_of_error hlt hq]
      obtain ⟨hlog, hdepth⟩ := hclosed hlog hdepth
      exact .error hlog ((hopened.append hsteps).concat (.counter _)) hdepth
  · rw [nested_of_full hfull, nested_of_full hfull]
    exact throw _

/-- A production is active from its call until it has a value. -/
theorem call (hroom : Room frames ⟨production, s.toPlace⟩)
    (hbody : ∀ s', s'.toPlace = s.toPlace →
      InStep 1 (⟨production, s.toPlace⟩ :: frames) s' (p.run s') (q.run s')) :
    InStep 1 frames s ((call production p).run s) ((call production q).run s) := by
  have hcalled : Steps ⟨frames, s.toPlace⟩ [.call production s.toPlace]
      ⟨⟨production, s.toPlace⟩ :: frames, s.toPlace⟩ := .cons (.call hroom) (.nil _)
  have h := hbody (s.record (.call production s.toPlace)) rfl
  rw [run_call, run_call]
  generalize p.run (s.record (.call production s.toPlace)) = x at h
  generalize q.run (s.record (.call production s.toPlace)) = y at h
  cases h with
  | @ok v s' log hlog hsteps hdepth hcount =>
    obtain ⟨used, hne, hused, -⟩ := hsteps.exists_used hcount
    refine .ok ?_ ((hcalled.append hsteps).concat (.value ⟨used, hne, hused⟩)) hdepth hcount
    simp [State.record, hlog]
  | error hlog hsteps hdepth =>
    refine .error ?_ (hcalled.append hsteps) hdepth
    simp [State.record, hlog]

variable {m : Meaning V} {ending : Ending} {tier : Tier}

theorem exists_used (h : InStep 1 frames s (p.run s) x) (hp : p.run s = .ok v s') :
    s'.depth = s.depth ∧ ∃ used, used ≠ [] ∧ s.rest = used ++ s'.rest := by
  rw [hp] at h
  cases h with
  | ok hlog hsteps hdepth hcount =>
    obtain ⟨used, hne, hused, -⟩ := hsteps.exists_used hcount
    exact ⟨hdepth, used, hne, hused⟩

theorem opened {f g : Unit → Parser V} (hne : s.rest ≠ [])
    (h : ∀ s₁, s₁.depth = s.depth → InStep 0 frames s₁ ((f ()).run s₁) ((g ()).run s₁)) :
    InStep 1 frames s ((Counter.advance ending >>= f).run s)
      ((Counter.advance ending >>= g).run s) := by
  obtain ⟨t, rest, hrest⟩ := List.exists_cons_of_ne_nil hne
  exact (advance hrest).bind fun _ s₁ hs₁ => h s₁ hs₁

theorem chain (hoperand : ∀ s', s'.depth = s.depth → InStep 1 frames s' (p.run s') (q.run s'))
    (clock : List Located) : ∀ left s', s'.depth = s.depth →
      InStep 0 frames s' ((chain m ending tier p clock left).run s')
        ((chain m ending tier q clock left).run s') := by
  induction clock with
  | nil => exact fun left s' _ => pure left
  | cons c clock ih =>
    intro left s' hs'
    refine get_bind ?_
    cases hrest : s'.rest with
    | nil => exact pure left
    | cons t rest =>
      simp only
      cases Operator.ofTier? tier t.token with
      | none => exact pure left
      | some op =>
        refine ((advance hrest).bind fun _ s₁ hs₁ => ?_).any
        refine ((hoperand s₁ (hs₁.trans hs')).bind fun right s₂ hs₂ => ?_).any
        refine (ofExcept _).bind fun value s₃ hs₃ => ?_
        exact ih value s₃ (by rw [hs₃, hs₂, hs₁, hs'])

theorem joined (hoperand : ∀ s', s'.depth = s.depth → InStep 1 frames s' (p.run s') (q.run s')) :
    InStep 1 frames s ((joined m ending tier p).run s) ((joined m ending tier q).run s) :=
  (hoperand s rfl).bind fun left s₁ hs₁ => get_bind (chain hoperand s₁.rest left s₁ hs₁)

end InStep

/-- With the budget, the callees of both sides end in step. -/
def Serves (budget : Nat) (callee other : Call V → Parser V) : Prop :=
  ∀ (c : Call V) (frames : List Frame) (s : State), Room frames ⟨c.production, s.toPlace⟩ →
    Suffices budget ⟨c.production, s.toPlace⟩ → c.Starts s.rest →
    InStep 1 frames s ((callee c).run s) ((other c).run s)

section Bodies

variable {m : Meaning V} {ending : Ending} {budget : Nat} {callee other : Call V → Parser V}
  {frames : List Frame} {production : Production} {place : Place} {s : State}

/-- A phrase that stands further down the chain is called in the same level. -/
theorem Serves.next (h : Serves budget callee other) (phrase : Phrase)
    (hroom : Room frames ⟨production, place⟩) (hbudget : Suffices (budget + 1) ⟨production, place⟩)
    (hdepth : s.depth = place.depth) (hrank : production.rank < (Counter.production phrase).rank) :
    InStep 1 (⟨production, place⟩ :: frames) s ((callee (.phrase phrase)).run s)
      ((other (.phrase phrase)).run s) :=
  h (.phrase phrase) _ s (hroom.next hdepth hrank) (hbudget.next hdepth hrank) trivial

/-- A level deeper there is room for any production, also for a power in a power. -/
theorem Serves.nested (h : Serves budget callee other) (c : Call V) {position : Nat}
    (hroom : Room frames ⟨production, place⟩) (hbudget : Suffices (budget + 1) ⟨production, place⟩)
    (hdepth : s.depth = place.depth) (hstarts : c.Starts s.rest) :
    InStep 1 (⟨production, place⟩ :: frames) s ((Counter.nested position (callee c)).run s)
      ((Counter.nested position (other c)).run s) := by
  refine InStep.nested fun hlt s₁ hs₁ => ?_
  rw [hdepth] at hlt
  have hdepth₁ : s₁.depth = place.depth + 1 := by rw [hs₁, ← hdepth]
  exact h c _ s₁ (hroom.deeper hlt hdepth₁) (hbudget.deeper hdepth₁) (by rwa [hs₁])

theorem Serves.joined (h : Serves budget callee other) {phrase operand : Phrase} {tier : Tier}
    (joins : Phrase.Joins phrase tier operand)
    (hroom : Room frames ⟨Counter.production phrase, place⟩)
    (hbudget : Suffices (budget + 1) ⟨Counter.production phrase, place⟩)
    (hdepth : s.depth = place.depth) :
    InStep 1 (⟨Counter.production phrase, place⟩ :: frames) s
      ((joined m ending tier (callee (.phrase operand))).run s)
      ((joined m ending tier (other (.phrase operand))).run s) :=
  InStep.joined fun _ hs₁ => h.next operand hroom hbudget (hs₁.trans hdepth)
    (rank_lt_of_joins joins)

theorem Serves.grouping (h : Serves budget callee other)
    (hroom : Room frames ⟨.grouping, place⟩) (hbudget : Suffices (budget + 1) ⟨.grouping, place⟩)
    (hplace : s.toPlace = place) (hne : s.rest ≠ []) :
    InStep 1 (⟨.grouping, place⟩ :: frames) s ((grouping m ending callee).run s)
      ((grouping m ending other).run s) := by
  refine InStep.opened hne fun s₁ hs₁ => ?_
  have hdepth₁ : s₁.depth = place.depth := by rw [hs₁, hplace]
  refine (h.next .expression hroom hbudget hdepth₁ (by decide)).any.bind fun v s₂ hs₂ => ?_
  refine InStep.get_bind ?_
  cases hrest : s₂.rest with
  | nil => exact .throw _
  | cons t rest =>
    simp only
    split
    · exact (InStep.advance hrest).any.bind fun _ s₃ _ => .pure _
    · exact .throw _

theorem Serves.functionCall (h : Serves budget callee other) (apply : V → V)
    (hroom : Room frames ⟨.functionCall, place⟩)
    (hbudget : Suffices (budget + 1) ⟨.functionCall, place⟩)
    (hplace : s.toPlace = place) (hne : s.rest ≠ []) :
    InStep 1 (⟨.functionCall, place⟩ :: frames) s ((functionCall ending callee apply).run s)
      ((functionCall ending other apply).run s) := by
  refine InStep.opened hne fun s₁ hs₁ => ?_
  have hdepth₁ : s₁.depth = place.depth := by rw [hs₁, hplace]
  exact (h.next .atom hroom hbudget hdepth₁ (by decide)).any.bind fun _ _ _ => .pure _

theorem Serves.atom (h : Serves budget callee other) (hroom : Room frames ⟨.atom, place⟩)
    (hbudget : Suffices (budget + 1) ⟨.atom, place⟩) (hplace : s.toPlace = place) :
    InStep 1 (⟨.atom, place⟩ :: frames) s ((atom m ending callee).run s)
      ((atom m ending other).run s) := by
  refine InStep.get_bind ?_
  have hnested (c : Call V) (position : Nat) (hstarts : c.Starts s.rest) :
      InStep 1 (⟨.atom, place⟩ :: frames) s ((Counter.nested position (callee c)).run s)
        ((Counter.nested position (other c)).run s) :=
    h.nested c hroom hbudget (by rw [hplace]) hstarts
  cases hrest : s.rest with
  | nil => exact .throw _
  | cons t rest =>
    simp only
    cases t.token with
    | number value => exact (InStep.advance hrest).bind fun _ s₁ _ => .pure _
    | identifier name =>
      simp only
      cases m.call? t.position name with
      | none => exact .throw _
      | some apply => exact hnested (.functionCall apply) t.position (by simp [Call.Starts, hrest])
    | symbol symbol =>
      cases symbol with
      | lparen => exact hnested .grouping t.position (by simp [Call.Starts, hrest])
      | _ => exact .throw _

theorem Serves.power (h : Serves budget callee other) (hroom : Room frames ⟨.power, place⟩)
    (hbudget : Suffices (budget + 1) ⟨.power, place⟩) (hplace : s.toPlace = place) :
    InStep 1 (⟨.power, place⟩ :: frames) s ((power m ending callee).run s)
      ((power m ending other).run s) := by
  have hdepth : s.depth = place.depth := by rw [hplace]
  refine (h.next .atom hroom hbudget hdepth (by decide)).bind fun base s₁ hs₁ => ?_
  refine InStep.get_bind ?_
  cases hrest : s₁.rest with
  | nil => exact .pure _
  | cons t rest =>
    simp only
    split
    · refine (InStep.advance hrest).any.bind fun _ s₂ hs₂ => ?_
      refine InStep.bind ?_ fun _ _ _ => InStep.ofExcept _
      exact (h.nested (.phrase .power) hroom hbudget ((hs₂.trans hs₁).trans hdepth) trivial).any
    · exact .pure _

theorem Serves.signedFactor (h : Serves budget callee other)
    (hroom : Room frames ⟨.signedFactor, place⟩)
    (hbudget : Suffices (budget + 1) ⟨.signedFactor, place⟩) (hplace : s.toPlace = place) :
    InStep 1 (⟨.signedFactor, place⟩ :: frames) s ((signedFactor m ending callee).run s)
      ((signedFactor m ending other).run s) := by
  have hpower (s₁ : State) (hs₁ : s₁.depth = place.depth) :=
    h.next .power hroom hbudget hs₁ (by decide)
  have hdepth : s.depth = place.depth := by rw [hplace]
  refine InStep.get_bind ?_
  cases hrest : s.rest with
  | nil => exact hpower s hdepth
  | cons t rest =>
    simp only
    cases t.token.sign? with
    | none => exact hpower s hdepth
    | some sign =>
      refine (InStep.advance hrest).bind fun _ s₁ hs₁ => ?_
      exact (hpower s₁ (hs₁.trans hdepth)).any.bind fun v s₂ _ => .pure _

theorem Serves.body (h : Serves budget callee other) (c : Call V)
    (hroom : Room frames ⟨c.production, place⟩)
    (hbudget : Suffices (budget + 1) ⟨c.production, place⟩) (hplace : s.toPlace = place)
    (hstarts : c.Starts s.rest) :
    InStep 1 (⟨c.production, place⟩ :: frames) s ((body m ending callee c).run s)
      ((body m ending other c).run s) := by
  cases c with
  | phrase phrase =>
    cases phrase with
    | expression => exact h.joined .expression hroom hbudget (by rw [hplace])
    | term => exact h.joined .term hroom hbudget (by rw [hplace])
    | signedFactor => exact h.signedFactor hroom hbudget hplace
    | power => exact h.power hroom hbudget hplace
    | atom => exact h.atom hroom hbudget hplace
  | grouping => exact h.grouping hroom hbudget hplace hstarts
  | functionCall apply => exact h.functionCall apply hroom hbudget hplace hstarts

end Bodies

/-- A larger budget, spent in another way, makes no difference. -/
theorem serves_perform (m : Meaning V) (ending : Ending) (spent spent' : Call V → Parser V)
    {budget budget' : Nat} (h : budget ≤ budget') :
    Serves budget (perform m ending spent budget) (perform m ending spent' budget') := by
  induction budget generalizing budget' with
  | zero =>
    -- No production stands so far down the chain that its own call is not to be counted.
    intro c frames s hroom hbudget
    obtain ⟨less, hless⟩ := hbudget.exists_budget hroom.high
    cases hless
  | succ budget ih =>
    obtain ⟨budget', rfl⟩ := Nat.exists_eq_add_of_le' (Nat.zero_lt_of_lt h)
    intro c frames s hroom hbudget hstarts
    refine InStep.call hroom fun s₀ hs₀ => ?_
    exact (ih (Nat.le_of_succ_le_succ h)).body c hroom hbudget hs₀ (by rwa [hs₀])

/-- How a production that is called at a state may end. -/
inductive Ends (c : Call V) (s : State) : EStateM.Result EvalError State V → Prop where
  /-- It has a value behind the tokens that it used up, and asked for as many; the counter is as it
  was, and nothing that was called is active any more. -/
  | value {v : V} {s' : State} {log : List Event} {used : List Located}
      (hlog : s'.log = s.log ++ log) (hfirst : log.head? = some (.call c.production s.toPlace))
      (hlast : log.getLast? = some (.value c.production s.toPlace s'.toPlace))
      (hpass : OnePass s.toPlace log) (hactive : active log = []) (hdepth : s'.depth = s.depth)
      (hne : used ≠ []) (hrest : s.rest = used ++ s'.rest)
      (hfetches : fetches log = used.length) : Ends c s (.ok v s')
  | failed {e : EvalError} {s' : State} {log : List Event} (hlog : s'.log = s.log ++ log)
      (hfirst : log.head? = some (.call c.production s.toPlace)) (hpass : OnePass s.toPlace log)
      (hdepth : s'.depth = s.depth) (hfetches : fetches log ≤ s.rest.length) :
      Ends c s (.error e s')

section Performing

variable {m : Meaning V} {ending : Ending} {spent spent' : Call V → Parser V}
  {budget budget' : Nat} {c : Call V} {s s' : State} {v : V} {e : EvalError}

theorem perform_eq (hlow : 0 ≤ s.depth) (hhigh : s.depth ≤ nestingLimit)
    (hbudget : Suffices budget ⟨c.production, s.toPlace⟩)
    (hbudget' : Suffices budget' ⟨c.production, s.toPlace⟩) (hstarts : c.Starts s.rest) :
    (perform m ending spent budget c).run s = (perform m ending spent' budget' c).run s := by
  have hroom : Room [] ⟨c.production, s.toPlace⟩ := room_nil hlow hhigh
  rcases Nat.le_total budget budget' with hle | hle
  · exact (serves_perform m ending spent spent' hle c [] s hroom hbudget hstarts).eq
  · exact (serves_perform m ending spent' spent hle c [] s hroom hbudget' hstarts).eq.symm

theorem ends_perform (hlow : 0 ≤ s.depth) (hhigh : s.depth ≤ nestingLimit)
    (hbudget : Suffices budget ⟨c.production, s.toPlace⟩) (hstarts : c.Starts s.rest) :
    Ends c s ((perform m ending spent budget c).run s) := by
  obtain ⟨budget, rfl⟩ := hbudget.exists_budget hhigh
  have hroom : Room [] ⟨c.production, s.toPlace⟩ := room_nil hlow hhigh
  have hcall : Step ⟨[], s.toPlace⟩ (.call c.production s.toPlace)
      ⟨[⟨c.production, s.toPlace⟩], s.toPlace⟩ := .call hroom
  let s₀ := s.record (.call c.production s.toPlace)
  let callee := perform m ending spent budget
  have hbody : InStep 1 [⟨c.production, s.toPlace⟩] s₀ ((body m ending callee c).run s₀)
      ((body m ending callee c).run s₀) :=
    (serves_perform m ending spent spent (Nat.le_refl budget)).body c hroom hbudget rfl hstarts
  rw [perform, run_call]
  generalize (body m ending callee c).run s₀ = x at hbody
  cases hbody with
  | @ok v s' log hlog hsteps hdepth hcount =>
    obtain ⟨used, hne, hrest, -⟩ := hsteps.exists_used hcount
    have hvalue : Step ⟨[⟨c.production, s.toPlace⟩], s'.toPlace⟩
        (.value c.production s.toPlace s'.toPlace) ⟨[], s'.toPlace⟩ := .value ⟨used, hne, hrest⟩
    have hall := (Steps.cons hcall hsteps).concat hvalue
    obtain ⟨used, hne, hrest, hfetches⟩ := hall.exists_used hcount
    refine .value ?_ rfl (List.getLast?_concat ..) hall.onePass hall.frames_eq.symm hdepth hne hrest
      hfetches
    simp [State.record, hlog, s₀]
  | @error e s' log p hlog hsteps hdepth =>
    have hall := Steps.cons hcall hsteps
    refine .failed ?_ rfl hall.onePass hdepth (Nat.le.intro hall.rest_eq.2)
    simp [State.record, hlog, s₀]

end Performing

section Reading

variable {m : Meaning V} {spent : Call V → Parser V} {budget : Nat} {input : Input} {s : State}
  {v : V} {e : EvalError}

theorem read_of_fault (h : input.openingFault? = some e) :
    read m spent budget input = (.error e, .start input.tokens) := by
  rw [read, h]

theorem read_of_error (h : input.openingFault? = none)
    (he : (perform m input.ending spent budget (.phrase .expression)).run (.start input.tokens) =
      .error e s) : read m spent budget input = (.error e, s) := by
  rw [read, h, whole, bind_of_error he]

theorem read_of_ok (h : input.openingFault? = none)
    (hv : (perform m input.ending spent budget (.phrase .expression)).run (.start input.tokens) =
      .ok v s) :
    read m spent budget input = ((Meaning.expectEnd s.rest).map fun _ => v, s) := by
  rw [read, h, whole, bind_of_ok hv, run_get_bind]
  cases Meaning.expectEnd s.rest <;> rfl

theorem expectEnd_eq_ok {rest : List Located} (h : Meaning.expectEnd rest = .ok ()) :
    rest = [] := by
  cases rest with
  | nil => rfl
  | cons t rest =>
    rw [Meaning.expectEnd] at h
    split at h <;> cases h

/-- The whole input is read in one pass, which starts with an expression at the first token and ends
with a value only behind the last one. -/
theorem onePass_read (m : Meaning V) (spent : Call V → Parser V) (hbudget : maxActive ≤ budget)
    (input : Input) :
    ∃ log, (read m spent budget input).2.log = .fetch :: log ∧ OnePass ⟨input.tokens, 0⟩ log ∧
      fetches log ≤ input.tokens.length ∧
      (input.openingFault? = none →
        log.head? = some (.call .expression ⟨input.tokens, 0⟩)) ∧
      ∀ v, (read m spent budget input).1 = .ok v →
        fetches log = input.tokens.length ∧ active log = [] := by
  cases hfault : input.openingFault? with
  | some e =>
    rw [read_of_fault hfault]
    exact ⟨[], rfl, (Steps.nil _).onePass, Nat.zero_le _, nofun, nofun⟩
  | none =>
    have hsuffices : Suffices budget ⟨.expression, ⟨input.tokens, 0⟩⟩ :=
      suffices_of_maxActive hbudget .expression (Int.le_refl 0)
    have h : Ends (.phrase .expression) (.start input.tokens)
        ((perform m input.ending spent budget (.phrase .expression)).run (.start input.tokens)) :=
      ends_perform (Int.le_refl 0) (Int.natCast_nonneg _) hsuffices trivial
    generalize hrun : EStateM.run _ _ = x at h
    cases h with
    | failed hlog hfirst hpass hdepth hfetches =>
      rw [read_of_error hfault hrun]
      exact ⟨_, hlog, hpass, hfetches, fun _ => hfirst, nofun⟩
    | @value v s log used hlog hfirst hlast hpass hactive hdepth hne hrest hfetches =>
      have hrest : input.tokens = used ++ s.rest := hrest
      rw [read_of_ok hfault hrun]
      refine ⟨log, hlog, hpass, ?_, fun _ => hfirst, fun w hw => ⟨?_, hactive⟩⟩
      · rw [hfetches, hrest, List.length_append]
        exact Nat.le_add_right _ _
      · cases hend : Meaning.expectEnd s.rest with
        | error e => rw [hend] at hw; cases hw
        | ok _ => rw [hfetches, hrest, expectEnd_eq_ok hend, List.append_nil]

end Reading

end Reckoner.Counter

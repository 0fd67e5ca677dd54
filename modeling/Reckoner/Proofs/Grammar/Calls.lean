import Reckoner.Proofs.Grammar.Counter

/-!
# Active productions

A record tells which productions are active, those that were called and have no value yet, which
tokens were fetched and how many levels are open. `Step` says what an event of a run may do. Main
statement: along such a run, an active production has more levels open than the one around it or
stands further down the chain from expressions to atoms, so there is a bound on how many are active
that no input can pass; and the tokens are passed once, from the front.
-/
namespace Reckoner.Counter

structure Frame where
  production : Production
  place : Place

/-- How far a production stands down the chain of those that call one another in one level. -/
def Production.rank : Production → Int
  | grouping | functionCall => 0
  | expression => 1
  | term => 2
  | signedFactor => 3
  | power => 4
  | atom => 5

/-- Grows from a production to those that it calls. -/
def Frame.height (f : Frame) : Int := 6 * f.place.depth + f.production.rank

/-- Six productions for each number of levels that may be open. -/
def maxActive : Nat := 6 * (nestingLimit + 1)

/-- The budget goes as far as productions may call one another from the frame on. -/
def Suffices (budget : Nat) (frame : Frame) : Prop := maxActive ≤ budget + frame.height

/-- What an event does to the active productions, of which the innermost stands first. -/
def Event.track (frames : List Frame) : Event → List Frame
  | call production place => ⟨production, place⟩ :: frames
  | value _ _ _ => frames.tail
  | _ => frames

def active (log : List Event) : List Frame := log.foldl Event.track []

def Event.isFetch : Event → Bool
  | fetch => true
  | _ => false

def fetches (log : List Event) : Nat := log.countP Event.isFetch

def Event.setCounter (depth : Int) : Event → Int
  | counter depth => depth
  | _ => depth

/-- Where a run is that started at a place, behind a part of its record. -/
def Place.behind (place : Place) (log : List Event) : Place :=
  ⟨place.rest.drop (fetches log), log.foldl Event.setCounter place.depth⟩

/-- The record of a run from a place is one pass: every call and every value is where the tokens
are that were fetched last, and a production that has a value is the innermost active one and has
used up tokens. One production is active inside of another only with at least as many levels open,
and inside of itself with more. -/
structure OnePass (place : Place) (log : List Event) : Prop where
  call {pre : List Event} {production : Production} {here : Place}
    (h : pre ++ [.call production here] <+: log) : here = place.behind pre
  value {pre : List Event} {production : Production} {before after : Place}
    (h : pre ++ [.value production before after] <+: log) :
    (active pre).head? = some ⟨production, before⟩ ∧ after = place.behind pre ∧
      ∃ used, used ≠ [] ∧ before.rest = used ++ after.rest
  bounded {pre : List Event} (h : pre <+: log) : (active pre).length ≤ maxActive
  deeper {pre : List Event} (h : pre <+: log) : (active pre).Pairwise fun inner outer =>
    outer.place.depth ≤ inner.place.depth ∧
      (inner.production = outer.production → outer.place.depth < inner.place.depth)

structure Room (frames : List Frame) (frame : Frame) : Prop where
  above : ∀ caller ∈ frames.head?, caller.height < frame.height
  low : 0 ≤ frame.place.depth
  high : frame.place.depth ≤ nestingLimit

/-- Every active production was called where there was room for it. -/
inductive Stacked : List Frame → Prop where
  | nil : Stacked []
  | cons {frames : List Frame} {frame : Frame} (hroom : Room frames frame)
      (h : Stacked frames) : Stacked (frame :: frames)

structure Progress where
  frames : List Frame
  place : Place

/-- What one event of a run may do. -/
inductive Step : Progress → Event → Progress → Prop where
  | fetch {frames : List Frame} {t : Located} {rest : List Located} {depth : Int} :
      Step ⟨frames, ⟨t :: rest, depth⟩⟩ .fetch ⟨frames, ⟨rest, depth⟩⟩
  | counter {frames : List Frame} {place : Place} (depth : Int) :
      Step ⟨frames, place⟩ (.counter depth) ⟨frames, { place with depth }⟩
  | call {frames : List Frame} {production : Production} {place : Place}
      (hroom : Room frames ⟨production, place⟩) :
      Step ⟨frames, place⟩ (.call production place) ⟨⟨production, place⟩ :: frames, place⟩
  | value {frames : List Frame} {production : Production} {before after : Place}
      (hused : ∃ used, used ≠ [] ∧ before.rest = used ++ after.rest) :
      Step ⟨⟨production, before⟩ :: frames, after⟩ (.value production before after)
        ⟨frames, after⟩

inductive Steps : Progress → List Event → Progress → Prop where
  | nil (p : Progress) : Steps p [] p
  | cons {p p' p'' : Progress} {e : Event} {log : List Event} (h : Step p e p')
      (hs : Steps p' log p'') : Steps p (e :: log) p''

section Stacks

variable {frames : List Frame} {frame outer : Frame}

theorem Production.rank_bounds (production : Production) :
    0 ≤ production.rank ∧ production.rank ≤ 5 := by
  cases production <;> decide

theorem rank_lt_of_joins {phrase operand : Phrase} {tier : Tier}
    (joins : Phrase.Joins phrase tier operand) :
    (production phrase).rank < (production operand).rank := by
  cases joins <;> decide

theorem Room.height_lt (h : Room frames frame) : frame.height < maxActive := by
  have hrank := frame.production.rank_bounds
  have hhigh := h.high
  simp only [Frame.height, maxActive, nestingLimit] at *
  omega

theorem room_nil (hlow : 0 ≤ frame.place.depth) (hhigh : frame.place.depth ≤ nestingLimit) :
    Room [] frame := by
  refine ⟨fun caller hcaller => ?_, hlow, hhigh⟩
  cases hcaller

section Budgets

variable {budget : Nat} {production called : Production} {place other : Place}

theorem suffices_of_maxActive (h : maxActive ≤ budget) (production : Production)
    (hlow : 0 ≤ place.depth) : Suffices budget ⟨production, place⟩ := by
  have hrank := production.rank_bounds
  simp only [Suffices, Frame.height]
  omega

/-- A frame within the bounds is not the last that a sufficient budget allows. -/
theorem Suffices.exists_budget (h : Suffices budget frame)
    (hhigh : frame.place.depth ≤ nestingLimit) : ∃ less, budget = less + 1 := by
  have hrank := frame.production.rank_bounds
  simp only [Suffices, Frame.height, maxActive] at h
  exact Nat.exists_eq_succ_of_ne_zero (by omega)

theorem Suffices.next (h : Suffices (budget + 1) ⟨production, place⟩)
    (hdepth : other.depth = place.depth) (hrank : production.rank < called.rank) :
    Suffices budget ⟨called, other⟩ := by
  simp only [Suffices, Frame.height, hdepth] at *
  omega

/-- Into a level, where every production may be called. -/
theorem Suffices.deeper (h : Suffices (budget + 1) ⟨production, place⟩)
    (hdepth : other.depth = place.depth + 1) : Suffices budget ⟨called, other⟩ := by
  have hrank := production.rank_bounds
  have hcalled := called.rank_bounds
  simp only [Suffices, Frame.height, hdepth] at *
  omega

theorem Room.next (h : Room frames ⟨production, place⟩) (hdepth : other.depth = place.depth)
    (hrank : production.rank < called.rank) :
    Room (⟨production, place⟩ :: frames) ⟨called, other⟩ := by
  refine ⟨fun caller hcaller => ?_, by simpa only [hdepth] using h.low,
    by simpa only [hdepth] using h.high⟩
  obtain rfl := Option.some.inj hcaller
  simp only [Frame.height, hdepth]
  omega

theorem Room.deeper (h : Room frames ⟨production, place⟩) (hlt : place.depth < nestingLimit)
    (hdepth : other.depth = place.depth + 1) :
    Room (⟨production, place⟩ :: frames) ⟨called, other⟩ := by
  have hlow := h.low
  have hrank := production.rank_bounds
  have hcalled := called.rank_bounds
  refine ⟨fun caller hcaller => ?_, ?_, ?_⟩ <;> simp only [Frame.height, hdepth] at *
  · obtain rfl := Option.some.inj hcaller
    simp only
    omega
  all_goals omega

end Budgets

theorem Stacked.pairwise (h : Stacked frames) :
    frames.Pairwise fun inner outer => outer.height < inner.height := by
  induction h with
  | nil => exact .nil
  | @cons frames frame hroom h ih =>
    refine List.pairwise_cons.mpr ⟨fun outer houter => ?_, ih⟩
    cases h with
    | nil => cases houter
    | @cons frames caller hcaller h =>
      have hframe := hroom.above caller rfl
      rcases List.mem_cons.mp houter with rfl | houter
      · exact hframe
      · exact Int.lt_trans ((List.pairwise_cons.mp ih).1 outer houter) hframe

/-- Heights start at zero and grow with every call. -/
theorem Stacked.length_le (h : Stacked frames) :
    ∀ inner ∈ frames.head?, frames.length ≤ inner.height + 1 := by
  induction h with
  | nil => nofun
  | @cons frames frame hroom h ih =>
    intro inner hinner
    obtain rfl : frame = inner := by simpa using hinner
    cases h with
    | nil =>
      have hrank := frame.production.rank_bounds
      have hlow := hroom.low
      simp only [List.length_cons, List.length_nil, Frame.height]
      omega
    | @cons frames caller hcaller h =>
      have hlength := ih caller rfl
      have hframe := hroom.above caller rfl
      simp only [List.length_cons] at hlength ⊢
      omega

theorem Stacked.length_le_maxActive (h : Stacked frames) : frames.length ≤ maxActive := by
  cases h with
  | nil => exact Nat.zero_le _
  | @cons frames frame hroom h =>
    have hlength := (Stacked.cons hroom h).length_le frame rfl
    have hheight := hroom.height_lt
    omega

/-- A production is only called again with more levels open. -/
theorem Stacked.deeper (h : Stacked frames) : frames.Pairwise fun inner outer =>
    outer.place.depth ≤ inner.place.depth ∧
      (inner.production = outer.production → outer.place.depth < inner.place.depth) := by
  refine h.pairwise.imp fun {inner outer} hheight => ?_
  have hinner := inner.production.rank_bounds
  have houter := outer.production.rank_bounds
  simp only [Frame.height] at hheight
  refine ⟨by omega, fun hsame => ?_⟩
  rw [hsame] at hheight
  omega

end Stacks

section Records

variable {p p' p'' : Progress} {e : Event} {log more : List Event}

theorem Step.frames_eq (h : Step p e p') : p'.frames = e.track p.frames := by
  cases h <;> rfl

theorem Step.depth_eq (h : Step p e p') : p'.place.depth = e.setCounter p.place.depth := by
  cases h <;> rfl

theorem Step.rest_eq (h : Step p e p') :
    p'.place.rest = p.place.rest.drop (fetches [e]) ∧
      fetches [e] + p'.place.rest.length = p.place.rest.length := by
  cases h with
  | fetch => exact ⟨rfl, Nat.add_comm _ _⟩
  | _ => exact ⟨rfl, Nat.zero_add _⟩

theorem Step.stacked (h : Step p e p') (hp : Stacked p.frames) : Stacked p'.frames := by
  cases h with
  | fetch => exact hp
  | counter => exact hp
  | call hroom => exact .cons hroom hp
  | value =>
    cases hp with
    | cons hroom h => exact h

theorem Step.place_of_call {production : Production} {here : Place}
    (h : Step p (.call production here) p') : here = p.place := by
  cases h
  rfl

theorem Step.of_value {production : Production} {before after : Place}
    (h : Step p (.value production before after) p') :
    p.frames.head? = some ⟨production, before⟩ ∧ after = p.place ∧
      ∃ used, used ≠ [] ∧ before.rest = used ++ after.rest := by
  cases h with
  | value hused => exact ⟨rfl, rfl, hused⟩

theorem fetches_append (log more : List Event) :
    fetches (log ++ more) = fetches log + fetches more :=
  List.countP_append

theorem fetches_fetch (log : List Event) : fetches (.fetch :: log) = fetches log + 1 :=
  List.countP_cons_of_pos rfl

theorem Steps.append (h : Steps p log p') (hmore : Steps p' more p'') :
    Steps p (log ++ more) p'' := by
  induction h with
  | nil => exact hmore
  | cons h _ ih => exact .cons h (ih hmore)

theorem Steps.concat (h : Steps p log p') (he : Step p' e p'') : Steps p (log ++ [e]) p'' :=
  h.append (.cons he (.nil _))

theorem Steps.split (h : Steps p (log ++ more) p'') :
    ∃ p', Steps p log p' ∧ Steps p' more p'' := by
  induction log generalizing p with
  | nil => exact ⟨p, .nil p, h⟩
  | cons e log ih =>
    cases h with
    | cons he h =>
      obtain ⟨p', hlog, hmore⟩ := ih h
      exact ⟨p', .cons he hlog, hmore⟩

theorem Steps.frames_eq (h : Steps p log p') : p'.frames = log.foldl Event.track p.frames := by
  induction h with
  | nil => rfl
  | cons h _ ih => rw [ih, h.frames_eq, List.foldl_cons]

theorem Steps.depth_eq (h : Steps p log p') :
    p'.place.depth = log.foldl Event.setCounter p.place.depth := by
  induction h with
  | nil => rfl
  | cons h _ ih => rw [ih, h.depth_eq, List.foldl_cons]

theorem Steps.rest_eq (h : Steps p log p') :
    p'.place.rest = p.place.rest.drop (fetches log) ∧
      fetches log + p'.place.rest.length = p.place.rest.length := by
  induction h with
  | nil => exact ⟨rfl, Nat.zero_add _⟩
  | @cons p p' p'' e log h hs ih =>
    obtain ⟨hrest, hlength⟩ := h.rest_eq
    have hfetches : fetches (e :: log) = fetches [e] + fetches log := fetches_append [e] log
    refine ⟨?_, ?_⟩
    · rw [hfetches, ih.1, hrest, List.drop_drop]
    · have := ih.2
      omega

theorem Steps.stacked (h : Steps p log p') (hp : Stacked p.frames) : Stacked p'.frames := by
  induction h with
  | nil => exact hp
  | cons h _ ih => exact ih (h.stacked hp)

/-- Between two places of a run lie the tokens that were fetched there. -/
theorem Steps.exists_used (h : Steps p log p')
    (hlt : p'.place.rest.length < p.place.rest.length) :
    ∃ used, used ≠ [] ∧ p.place.rest = used ++ p'.place.rest ∧ fetches log = used.length := by
  obtain ⟨hrest, hlength⟩ := h.rest_eq
  refine ⟨p.place.rest.take (fetches log), ?_, ?_, ?_⟩
  · rw [Ne, List.take_eq_nil_iff, ← List.length_eq_zero_iff]
    omega
  · rw [hrest, List.take_append_drop]
  · exact (List.length_take_of_le (Nat.le.intro hlength)).symm

end Records

section Start

variable {place : Place} {log pre : List Event} {e : Event} {p : Progress}

theorem Steps.eq_behind (h : Steps ⟨[], place⟩ log p) : p = ⟨active log, place.behind log⟩ := by
  obtain ⟨frames, rest, depth⟩ := p
  obtain rfl : frames = active log := h.frames_eq
  obtain rfl : depth = log.foldl Event.setCounter place.depth := h.depth_eq
  obtain rfl : rest = place.rest.drop (fetches log) := h.rest_eq.1
  rfl

theorem Steps.stacked_of_prefix (h : Steps ⟨[], place⟩ log p) (hpre : pre <+: log) :
    Stacked (active pre) := by
  obtain ⟨more, rfl⟩ := hpre
  obtain ⟨p', hpre, -⟩ := h.split
  have hstacked := hpre.stacked .nil
  rwa [hpre.eq_behind] at hstacked

theorem Steps.step_of_prefix (h : Steps ⟨[], place⟩ log p) (hpre : pre ++ [e] <+: log) :
    ∃ p', Step ⟨active pre, place.behind pre⟩ e p' := by
  obtain ⟨more, rfl⟩ := hpre
  obtain ⟨p'', h, -⟩ := h.split
  obtain ⟨p', hpre, he⟩ := h.split
  cases he with
  | cons he hnil =>
    rw [hpre.eq_behind] at he
    exact ⟨_, he⟩

theorem Steps.onePass (h : Steps ⟨[], place⟩ log p) : OnePass place log where
  call hpre := by
    obtain ⟨p', hstep⟩ := h.step_of_prefix hpre
    exact hstep.place_of_call
  value hpre := by
    obtain ⟨p', hstep⟩ := h.step_of_prefix hpre
    exact hstep.of_value
  bounded hpre := (h.stacked_of_prefix hpre).length_le_maxActive
  deeper hpre := (h.stacked_of_prefix hpre).deeper

end Start

end Reckoner.Counter

import Reckoner.Proofs.Grammar.Budget
import Reckoner.Proofs.Grammar.Productions

/-!
# Rounds of a loop

The loops that join operands have a clock, the tokens that are left when they start. Main statement:
the clock never stops a loop, because every round uses up an operator and an operand.
-/
namespace Reckoner.Counter

variable {V : Type} (m : Meaning V) (ending : Ending) (tier : Tier) (operand : Parser V)

/-- One round of a loop: behind the operator at the front follows an operand. -/
def round (op : Operator) (position : Nat) (left : V) : Parser V := do
  advance ending
  let right ← operand
  ofExcept (m.combine op position left right)

/-- What a loop without a clock does with the operands that are joined so far. -/
inductive Rounds : V → State → EStateM.Result EvalError State V → Prop where
  | done {left : V} {s : State}
      (h : ∀ t ∈ s.rest.head?, Operator.ofTier? tier t.token = none) :
      Rounds left s (.ok left s)
  | failed {left : V} {s s' : State} {t : Located} {op : Operator} {e : EvalError}
      (ht : t ∈ s.rest.head?) (hop : Operator.ofTier? tier t.token = some op)
      (h : (round m ending operand op t.position left).run s = .error e s') :
      Rounds left s (.error e s')
  | further {left value : V} {s s' : State} {t : Located} {op : Operator} {used : List Located}
      {result : EStateM.Result EvalError State V} (hop : Operator.ofTier? tier t.token = some op)
      (hrest : s.rest = t :: used ++ s'.rest) (hne : used ≠ [])
      (h : (round m ending operand op t.position left).run s = .ok value s')
      (hs : Rounds value s' result) : Rounds left s result

variable {m ending tier operand} {frames : List Frame} {depth : Int}

theorem round_eq_ok (hoperand : ∀ s, s.depth = depth →
      InStep 1 frames s (operand.run s) (operand.run s))
    {op : Operator} {position : Nat} {left value : V} {s s' : State} {t : Located}
    {rest : List Located} (hs : s.depth = depth) (hrest : s.rest = t :: rest)
    (h : (round m ending operand op position left).run s = .ok value s') :
    s'.depth = depth ∧ ∃ used, used ≠ [] ∧ s.rest = t :: used ++ s'.rest := by
  obtain ⟨_, s₁, hadvance, h⟩ := run_bind_eq_ok.mp h
  obtain ⟨right, s₂, hright, h⟩ := run_bind_eq_ok.mp h
  have hs₁ : s₁.depth = s.depth ∧ s₁.rest = rest := by
    rw [run_advance, hrest, List.tail_cons] at hadvance
    split at hadvance
    · next hok =>
      cases hadvance
      exact ⟨rfl, Meaning.advance_eq_ok hok⟩
    · cases hadvance
  have hdepth₁ := hs₁.1.trans hs
  obtain ⟨hs₂, used, hne, hused⟩ := (hoperand s₁ hdepth₁).exists_used hright
  obtain rfl : s₂ = s' := by
    cases hcombine : m.combine op position left right with
    | ok v =>
      rw [hcombine] at h
      cases h
      rfl
    | error e =>
      rw [hcombine] at h
      cases h
  refine ⟨hs₂.trans hdepth₁, used, hne, ?_⟩
  rw [hrest, ← hs₁.2, hused, List.cons_append]

theorem rounds_chain (hoperand : ∀ s, s.depth = depth →
      InStep 1 frames s (operand.run s) (operand.run s)) (clock : List Located) :
    ∀ left s, s.depth = depth → s.rest.length ≤ clock.length →
      Rounds m ending tier operand left s ((chain m ending tier operand clock left).run s) := by
  induction clock with
  | nil =>
    intro left s hs hclock
    have hrest := List.length_eq_zero_iff.mp (Nat.le_zero.mp hclock)
    exact .done (by simp [hrest])
  | cons c clock ih =>
    intro left s hs hclock
    rw [chain, run_get_bind]
    cases hrest : s.rest with
    | nil => exact .done (by simp [hrest])
    | cons t rest =>
      simp only
      cases hop : Operator.ofTier? tier t.token with
      | none => exact .done (by simp [hrest, hop])
      | some op =>
        have hround : (do
            advance ending
            let right ← operand
            let value ← ofExcept (m.combine op t.position left right)
            chain m ending tier operand clock value) =
            round m ending operand op t.position left >>= chain m ending tier operand clock := by
          simp only [round, bind_assoc]
        simp only [hround]
        cases h : (round m ending operand op t.position left).run s with
        | error e s' =>
          rw [bind_of_error h]
          exact .failed (by simp [hrest]) hop h
        | ok value s' =>
          rw [bind_of_ok h]
          obtain ⟨hs', used, hne, hused⟩ := round_eq_ok hoperand hs hrest h
          refine .further hop hused hne h (ih value s' hs' ?_)
          rw [hused] at hclock
          simp only [List.length_append, List.length_cons] at hclock
          omega

end Reckoner.Counter

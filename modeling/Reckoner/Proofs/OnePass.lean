import Reckoner.Proofs.Grammar.Counting
import Reckoner.Proofs.Grammar.Input
import Reckoner.Proofs.Grammar.Rounds

/-!
# One pass with a bounded recursion

An evaluation passes the tokens of its source once, from the front. Productions call one another
again only inside a level, and levels are limited, so there is a bound on the calls that are active
at once. Main statement: six calls for each number of levels that may be open are budget enough for
every source and for every production inside the bounds on the counter, and the record of a run
shows one pass.
-/
namespace Reckoner

open Counter (Call Ends Event Frame OnePass Rounds State active fetches perform)

theorem Input.length_tokens_le (separator : Char) (source : String) :
    (ofSource separator source).tokens.length ≤ (lexemes separator source).length := by
  have hitems (position : Nat) (items : List (Except EvalError Located)) :
      (ofItems position items).tokens.length ≤ items.length := by
    induction items with
    | nil => exact Nat.le_refl _
    | cons item items ih =>
      cases item with
      | error e => exact Nat.zero_le _
      | ok t => exact Nat.succ_le_succ ih
  exact Nat.le_trans (hitems _ _) (Nat.le_of_eq (List.length_map _))

namespace Counter

variable {V : Type} {m : Meaning V} {spent : Call V → Parser V} {budget : Nat}

/-- Wherever a loop runs within the budget, it goes round by round until there is no operator. -/
theorem rounds_perform {ending : Ending} {tier : Tier} {operand : Phrase} {s : State}
    (hlow : 0 ≤ s.depth) (hhigh : s.depth ≤ nestingLimit)
    (hbudget : Suffices budget ⟨production operand, s.toPlace⟩) (left : V) :
    Rounds m ending tier (perform m ending spent budget (.phrase operand)) left s
      ((chain m ending tier (perform m ending spent budget (.phrase operand)) s.rest left).run
        s) := by
  let parser := perform m ending spent budget (.phrase operand)
  have hoperand (s' : State) (hs' : s'.depth = s.depth) :
      InStep 1 [] s' (parser.run s') (parser.run s') := by
    have hbudget' : Suffices budget ⟨production operand, s'.toPlace⟩ := by
      simpa only [Suffices, Frame.height, hs'] using hbudget
    rw [← hs'] at hlow hhigh
    exact serves_perform m ending spent spent (Nat.le_refl budget) (.phrase operand) [] s'
      (room_nil hlow hhigh) hbudget' trivial
  exact rounds_chain hoperand s.rest left s rfl (Nat.le_refl _)

end Counter

theorem length_tokens_of_evaluate {separator : Separator} {functions : FunctionTable}
    {source : String} {v : Float} (hv : evaluate source separator functions = .ok v) :
    (Input.ofSource separator.char source).tokens.length =
      (lexemes separator.char source).length := by
  obtain ⟨tree, haccepts, -⟩ := accepts_of_evaluate hv
  have hitems := congrArg List.length (items_of_accepts haccepts)
  rw [List.length_map, List.length_map] at hitems
  exact hitems.symm

/-- Within a budget of six calls for each number of levels that may be open, whatever would happen
without it, the evaluation of a source ends as it does without a budget. It is the run of an
expression that is called at the first token, its record is one pass, and it asks for a token no
more often than there are lexemes, and once more for the end. Each of the seven productions, called
anywhere inside the bounds on the counter, passes tokens once before it has a value, and reads the
same whatever is left of the budget if that is enough. The loops that join operands pass an operator
and an operand in every round. -/
theorem evaluate_one_pass (separator : Separator) (functions : FunctionTable) :
    (∀ source spent budget, 6 * 129 ≤ budget →
      let input := Input.ofSource separator.char source
      let start := State.start input.tokens
      let run := Counter.read functions.meaning spent budget input
      run.1 = evaluate source separator functions ∧
      fetches run.2.log ≤ (lexemes separator.char source).length + 1 ∧
      (∀ v, run.1 = .ok v →
        fetches run.2.log = (lexemes separator.char source).length + 1 ∧
        active run.2.log = []) ∧
      (∃ log, run.2.log = .fetch :: log ∧ OnePass ⟨input.tokens, 0⟩ log ∧
        (input.openingFault? = none →
          log.head? = some (.call .expression ⟨input.tokens, 0⟩))) ∧
      (∀ e, input.openingFault? = some e → run = (.error e, start)) ∧
      (input.openingFault? = none →
        let parser := perform functions.meaning input.ending spent budget (.phrase .expression)
        (∀ e s, parser.run start = .error e s → run = (.error e, s)) ∧
        ∀ v s, parser.run start = .ok v s →
          run = ((Meaning.expectEnd s.rest).map fun _ => v, s))) ∧
    (∀ ending spent (budget : Nat) (c : Call Float),
      let callee := perform functions.meaning ending spent budget
      let parser := perform functions.meaning ending spent (budget + 1) c
      parser = Counter.call c.production (Counter.body functions.meaning ending callee c) ∧
      ∀ s, 0 ≤ s.depth → s.depth ≤ 128 →
        6 * 129 ≤ budget + 1 + Frame.height ⟨c.production, s.toPlace⟩ → c.Starts s.rest →
        Ends c s (parser.run s) ∧
        (∀ spent' (budget' : Nat), 6 * 129 ≤ budget' + Frame.height ⟨c.production, s.toPlace⟩ →
          (perform functions.meaning ending spent' budget' c).run s = parser.run s) ∧
        ∀ phrase (n : Nat), c = .phrase phrase → s.depth + n = 128 →
          Counter.outcome (parser.run s) = functions.meaning.reader ending n phrase s.rest) ∧
    ∀ ending spent (budget : Nat) phrase tier operand, Phrase.Joins phrase tier operand →
      let callee := perform functions.meaning ending spent budget
      let parser := callee (.phrase operand)
      Counter.body functions.meaning ending callee (.phrase phrase) = (do
        let left ← parser
        Counter.chain functions.meaning ending tier parser (← get).rest left) ∧
      ∀ left s, 0 ≤ s.depth → s.depth ≤ 128 →
        6 * 129 ≤ budget + Frame.height ⟨Counter.production operand, s.toPlace⟩ →
        Rounds functions.meaning ending tier parser left s
          ((Counter.chain functions.meaning ending tier parser s.rest left).run s) := by
  refine ⟨fun source spent budget hbudget => ?_,
    fun ending spent budget c => ⟨rfl, fun s hlow hhigh hbudget hstarts => ⟨?_, ?_, ?_⟩⟩,
    fun ending spent budget phrase tier operand joins => ⟨by cases joins <;> rfl,
      fun left s hlow hhigh hbudget => Counter.rounds_perform hlow hhigh hbudget left⟩⟩
  · have hread := (Counter.read_agrees functions.meaning_knows hbudget spent
      (.ofSource separator.char source)).1
    obtain ⟨log, hlog, hpass, hle, hfirst, hvalue⟩ := Counter.onePass_read functions.meaning spent
      hbudget (.ofSource separator.char source)
    have htokens := Input.length_tokens_le separator.char source
    refine ⟨hread, ?_, fun v hv => ?_, ⟨log, hlog, hpass, hfirst⟩,
      fun e => Counter.read_of_fault,
      fun hfault => ⟨fun e s => Counter.read_of_error hfault, fun v s => Counter.read_of_ok hfault⟩⟩
    · rw [hlog, Counter.fetches_fetch]
      exact Nat.succ_le_succ (Nat.le_trans hle htokens)
    · obtain ⟨hcount, hactive⟩ := hvalue v hv
      rw [hlog, Counter.fetches_fetch, hcount, length_tokens_of_evaluate (hread.symm.trans hv)]
      exact ⟨rfl, hactive⟩
  · exact Counter.ends_perform hlow hhigh hbudget hstarts
  · exact fun spent' budget' hbudget' =>
      Counter.perform_eq hlow hhigh hbudget' hbudget hstarts
  · rintro phrase n rfl hlevels
    exact Counter.outcome_perform functions.meaning_knows ending spent phrase hlow hlevels hbudget

end Reckoner

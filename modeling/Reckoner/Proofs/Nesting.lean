import Reckoner.Proofs.Grammar.Budget
import Reckoner.Proofs.Grammar.Counting
import Reckoner.Proofs.Grammar.Input
import Reckoner.Proofs.Grammar.Levels

/-!
# Nesting

An expression opens levels one inside the other, and may be as wide as it likes. Main statement: an
expression of known functions that divides by no zero has its value unless it opens more levels at
once than allowed, and then fails at the first token that opens one too many; and what is counted on
the way is always the number of levels that are open.
-/
namespace Reckoner

variable {known : String → Bool} {tokens : List Located} {tree : Expr} {n : Nat}

/-- With fewer levels than its tree has, reading an expression fails for want of levels. -/
theorem Derives.fails (h : Derives .expression tokens tree) (hnames : NamesKnown known tokens)
    (finish : Nat) (hn : n < tree.levels) :
    ∃ pre t rest, tokens = pre ++ t :: rest ∧ Fails known (.finish finish) n .expression pre
      (t :: rest) ⟨t.position, .nestingTooDeep nestingLimit⟩ := by
  have hlimited := Meaning.reader_limited (Expr.building_knows known) h hnames
    (Expr.denote_building h hnames) (Phrase.clear_nil _) (Ending.advance_finish finish []) n
  obtain ⟨position, hread⟩ := hlimited.tooDeep (Nat.not_le.mpr hn)
  rw [List.append_nil] at hread
  rcases reads_or_breaks known (.finish finish) n .expression tokens with
    ⟨used, rest, other, rfl, hadmits, hstops, hadvance⟩ | ⟨pre, rest, e, rfl, hfails⟩
  · rw [Meaning.reader_of_admits (Expr.building_knows known) hadmits hstops hadvance,
      Expr.denote_building hadmits.derives hadmits.names] at hread
    cases hread
  · obtain rfl : e = ⟨position, .nestingTooDeep nestingLimit⟩ := by
      rcases Meaning.reader_of_fails (Expr.building_knows known) hfails with
        hsame | ⟨d, ⟨t, -, op, a, b, -, hcombine⟩, -⟩
      · exact Except.error.inj (hsame.symm.trans hread)
      · cases hcombine
    obtain ⟨hplace, hend⟩ := hfails.located
    cases rest with
    | nil => cases hend rfl
    | cons t rest =>
      obtain rfl : position = t.position := hplace
      exact ⟨pre, t, rest, rfl, hfails⟩

/-- While the tokens of an expression are read, as many levels are open at once as its tree has, and
no more: some token opens a level while `n` are open exactly if the tree has more than `n`. -/
theorem Derives.exists_opens_iff (h : Derives .expression tokens tree) :
    (∃ pre t rest, tokens = pre ++ t :: rest ∧ t.token.opens = true ∧
      (openings pre).length = n) ↔ n < tree.levels := by
  constructor
  · rintro ⟨pre, t, rest, rfl, hopens, rfl⟩
    have hbelow := below_of_derives h [] nofun (Nat.le_of_eq (Nat.zero_add _))
    exact hbelow.lt t rfl hopens
  · intro hn
    have hnames : NamesKnown (fun _ => true) tokens := fun _ _ _ _ => rfl
    obtain ⟨pre, t, rest, rfl, hfails⟩ := h.fails hnames 0 hn
    obtain ⟨hopens, hlength, -⟩ := hfails.opens (List.cons_ne_nil t rest) rfl [] nofun
    exact ⟨pre, t, rest, rfl, hopens t rfl, hlength.trans (Nat.zero_add n)⟩

example : openings (Input.ofSource '.' "1 + 2 ^ sin (3 ^ 4 ^ 5").tokens =
    [.exponent, .exponent, .group, .argument, .exponent] := by
  decide +kernel

section Sources

variable {source : String} {separator : Separator} {functions : FunctionTable}

theorem exists_yields (h : Derives .expression tokens tree)
    (hnames : NamesKnown functions.contains tokens)
    (hzero : ∀ p, ¬ tree.DividesByZeroAt functions p) : ∃ v, tree.Yields functions v := by
  cases htree : tree.evaluate functions with
  | ok v => exact ⟨v, Expr.yields_iff.mpr htree⟩
  | error e =>
    rw [← functions.denote_meaning] at htree
    obtain ⟨t, -, -, rfl⟩ := functions.refuses_meaning
      (Meaning.refuses_of_denote functions.meaning_knows h hnames htree)
    rw [functions.denote_meaning] at htree
    exact absurd (Expr.dividesByZeroAt_of_evaluate htree) (hzero t.position)

/-- An expression with too many levels fails at the first token that opens one too many. -/
theorem evaluate_of_lt_levels {v : Float}
    (hitems : (lexemes separator.char source).map Lexeme.item = tokens.map .ok)
    (h : Derives .expression tokens tree) (hnames : NamesKnown functions.contains tokens)
    (hv : tree.Yields functions v) (hlevels : nestingLimit < tree.levels) :
    ∃ pre t rest, tokens = pre ++ t :: rest ∧ t.token.opens = true ∧
      (openings pre).length = nestingLimit ∧
      (∀ front o between, pre = front ++ o :: between → o.token.opens = true →
        (openings front).length < nestingLimit) ∧
      evaluate source separator functions =
        .error ⟨t.position, .nestingTooDeep nestingLimit⟩ := by
  have hinput := Input.ofSource_of_items hitems
  obtain ⟨pre, t, rest, rfl, hfails⟩ := h.fails hnames (byteLength source.toList) hlevels
  obtain ⟨hopens, hlength, hbelow⟩ := hfails.opens (List.cons_ne_nil t rest) rfl [] nofun
  refine ⟨pre, t, rest, rfl, hopens t rfl, hlength, ?_, ?_⟩
  · rintro front o between rfl ho
    exact hbelow.lt o rfl ho
  · have hvalue : functions.meaning.denote tree = .ok v :=
      (functions.denote_meaning tree).trans (Expr.yields_iff.mp hv)
    have hlimited := Meaning.reader_limited functions.meaning_knows h hnames hvalue
      (Phrase.clear_nil _) (Ending.advance_finish (byteLength source.toList) []) nestingLimit
    obtain ⟨position, hread⟩ := hlimited.tooDeep (Nat.not_le.mpr hlevels)
    rw [List.append_nil] at hread
    -- There is a value without the limit, so no division fails in front of the token.
    have hfailed : functions.meaning.reader (.finish (byteLength source.toList)) nestingLimit
        .expression (pre ++ t :: rest) = .error ⟨t.position, .nestingTooDeep nestingLimit⟩ := by
      rcases Meaning.reader_of_fails functions.meaning_knows hfails with hsame | ⟨d, hd, hdivision⟩
      · exact hsame
      · obtain ⟨t', -, -, rfl⟩ := functions.refuses_meaning hd
        cases hread.symm.trans hdivision
    rw [evaluate, hinput]
    change (functions.meaning.reader _ nestingLimit .expression (pre ++ t :: rest) >>= _) = _
    rw [hfailed]
    rfl

end Sources

/-- The tokens of an expression open as many levels at once as its tree has. The limit on them is
exact, is met at the first token that opens a level too many, and has nothing to do with the width
of an expression. Whatever the source is, the counter always tells how many levels are open, stays
within its bounds and is left as it was by every production that has a value. -/
theorem evaluate_nesting (separator : Separator) (functions : FunctionTable) :
    (∀ tokens tree n, Derives .expression tokens tree →
      ((∃ pre t rest, tokens = pre ++ t :: rest ∧ t.token.opens = true ∧
        (openings pre).length = n) ↔ n < tree.levels)) ∧
    (∀ source tokens tree, (lexemes separator.char source).map Lexeme.item = tokens.map .ok →
      Derives .expression tokens tree → NamesKnown functions.contains tokens →
      (∀ p, ¬ tree.DividesByZeroAt functions p) →
      ((∃ p limit, evaluate source separator functions = .error ⟨p, .nestingTooDeep limit⟩) ↔
        128 < tree.levels) ∧
      (128 < tree.levels → ∃ pre t rest, tokens = pre ++ t :: rest ∧ t.token.opens = true ∧
        (openings pre).length = 128 ∧
        (∀ front o between, pre = front ++ o :: between → o.token.opens = true →
          (openings front).length < 128) ∧
        evaluate source separator functions = .error ⟨t.position, .nestingTooDeep 128⟩) ∧
      (tree.levels ≤ 128 → ∃ v, tree.Yields functions v ∧
        evaluate source separator functions = .ok v)) ∧
    ∀ source spent budget, 6 * 129 ≤ budget →
      let input := Input.ofSource separator.char source
      let run := Counter.read functions.meaning spent budget input
      run.1 = evaluate source separator functions ∧ run.2.depth = 0 ∧
        (input.openingFault? = none → ∃ log,
          run.2.log = .fetch :: .call .expression ⟨input.tokens, 0⟩ :: log) ∧
        (∀ v, run.1 = .ok v → Counter.fetches run.2.log = input.tokens.length + 1) ∧
        (∀ production place, .call production place ∈ run.2.log →
          (∃ pre, pre ++ place.rest = input.tokens ∧
            place.depth = ((openings (pre ++ production.opener place.rest)).length : Int)) ∧
          0 ≤ place.depth ∧ place.depth ≤ 128) ∧
        (∀ depth, .counter depth ∈ run.2.log → 0 ≤ depth ∧ depth ≤ 128) ∧
        ∀ production before after, .value production before after ∈ run.2.log →
          after.depth = before.depth := by
  refine ⟨fun tokens tree n h => h.exists_opens_iff,
    fun source tokens tree hitems h hnames hzero => ?_, fun source spent budget hbudget => ?_⟩
  · obtain ⟨v, hv⟩ := exists_yields h hnames hzero
    have hdeep : 128 < tree.levels → _ := evaluate_of_lt_levels hitems h hnames hv
    have hvalue (hlevels : tree.levels ≤ 128) : evaluate source separator functions = .ok v := by
      rw [evaluate_of_items hitems ⟨h, hlevels, hnames⟩]
      exact Expr.yields_iff.mp hv
    refine ⟨⟨?_, fun hlevels => ?_⟩, hdeep, fun hlevels => ⟨v, hv, hvalue hlevels⟩⟩
    · rintro ⟨p, limit, he⟩
      refine Nat.lt_of_not_le fun hlevels => ?_
      rw [hvalue hlevels] at he
      cases he
    · obtain ⟨pre, t, rest, -, -, -, -, he⟩ := hdeep hlevels
      exact ⟨_, _, he⟩
  · obtain ⟨hread, hdepth, hsound⟩ := Counter.read_agrees functions.meaning_knows hbudget spent
      (.ofSource separator.char source)
    obtain ⟨log, hlog, -, -, hfirst, hvalue⟩ := Counter.onePass_read functions.meaning spent
      hbudget (.ofSource separator.char source)
    refine ⟨hread, hdepth, fun hfault => ?_, fun v hv => ?_, fun production place hcall => ?_,
      fun depth => hsound _, fun production before after => hsound _⟩
    · obtain ⟨more, rfl⟩ := List.head?_eq_some_iff.mp (hfirst hfault)
      exact ⟨more, hlog⟩
    · rw [hlog, Counter.fetches_fetch, (hvalue v hv).1]
    · obtain ⟨pre, hsplit, hopened, hle⟩ := hsound _ hcall
      exact ⟨⟨pre, hsplit, hopened⟩, by omega, hle⟩

end Reckoner

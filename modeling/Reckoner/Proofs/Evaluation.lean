import Reckoner.Proofs.Grammar.Input

/-!
# What evaluation computes

Main statements: a source evaluates to a value exactly if it is an expression of the grammar that
keeps within the levels, the known names and the rules of division, and then to the value of its
tree; and evaluating in one pass agrees with building the tree first.
-/
namespace Reckoner

variable (source : String) (separator : Separator) (functions : FunctionTable)

/-- The grammar, the levels, the names and the divisors decide whether there is a value, and the
tree of the source, which is unique, decides which one. -/
theorem evaluate_eq_ok_iff (v : Float) :
    evaluate source separator functions = .ok v ↔
      ∃ tokens tree,
        (lexemes separator.char source).map Lexeme.item = tokens.map .ok ∧
        Derives .expression tokens tree ∧
        (∀ other, Derives .expression tokens other → other = tree) ∧
        NamesKnown functions.contains tokens ∧
        tree.levels ≤ nestingLimit ∧
        tree.Yields functions v := by
  constructor
  · intro hv
    obtain ⟨tree, h, htree⟩ := accepts_of_evaluate hv
    exact ⟨_, tree, items_of_accepts h, h.admits.derives,
      fun other hother => hother.unique h.admits.derives, h.admits.names, h.admits.levels,
      Expr.yields_iff.mpr htree⟩
  · rintro ⟨tokens, tree, hitems, hderives, -, hnames, hlevels, hyields⟩
    rw [evaluate_of_items hitems ⟨hderives, hlevels, hnames⟩, ← Expr.yields_iff]
    exact hyields

/-- Where a tree can be built, evaluation gives what the tree evaluates to: its value or its first
division by zero. Where none can be built, evaluation fails for the same reason, unless a division
by zero in front of that place comes first. -/
theorem evaluate_agrees_with_parse :
    match Expr.parse source separator functions with
    | .ok tree =>
      evaluate source separator functions = tree.evaluate functions ∧
        ((∃ v, tree.Yields functions v ∧ evaluate source separator functions = .ok v) ∨
          ∃ p, tree.DividesByZeroAt functions p ∧
            evaluate source separator functions = .error ⟨p, .divisionByZero⟩)
    | .error e =>
      evaluate source separator functions = .error e ∨
        ∃ l ∈ lexemes separator.char source,
          (l.content = .ok (.symbol .slash) ∨ l.content = .ok (.symbol .percent)) ∧
            l.start < e.position ∧
            evaluate source separator functions = .error ⟨l.start, .divisionByZero⟩ := by
  rcases Input.accepts_or_rejects functions.contains (.ofSource separator.char source) with
    ⟨tree, h⟩ | ⟨pre, rest, e, htokens, h⟩
  · rw [parse_of_accepts h]
    have heval := evaluate_of_accepts h
    refine ⟨heval, ?_⟩
    cases htree : tree.evaluate functions with
    | ok v => exact .inl ⟨v, Expr.yields_iff.mpr htree, heval.trans htree⟩
    | error d =>
      obtain ⟨t, -, -, rfl⟩ := error_of_accepts h (heval.trans htree)
      exact .inr ⟨t.position, Expr.dividesByZeroAt_of_evaluate htree, heval.trans htree⟩
  · rw [parse_of_rejects htokens h]
    rcases evaluate_of_rejects htokens h with he | ⟨t, ht, htoken, he⟩
    · exact .inl he
    · have hordered := Input.ofSource_ordered separator.char source
      have hmem : t ∈ (Input.ofSource separator.char source).tokens := by
        rw [← htokens]
        exact List.mem_append_left _ ht
      obtain ⟨l, hl, hcontent, hstart⟩ := Input.mem_lexemes_of_mem_tokens hmem
      refine .inr ⟨l, hl, ?_, ?_, hstart ▸ he⟩
      · rcases htoken with htoken | htoken
        · exact .inl (hcontent.trans (congrArg _ htoken))
        · exact .inr (hcontent.trans (congrArg _ htoken))
      · rw [hstart, h.located.1]
        exact hordered.lt_place htokens ht

end Reckoner

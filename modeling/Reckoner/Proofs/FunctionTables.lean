import Reckoner.Proofs.Grammar.Relocation
import Reckoner.Proofs.Source.Runs
import Reckoner.Proofs.SyntaxErrors

/-!
# What evaluation takes from the table

Evaluation looks up the names that it reads, and nothing else of the table matters. Main statement:
tables that agree on the names in a source give the same outcome, and further functions change no
outcome but an unknown name, in front of which nothing is newly wrong then.
-/
namespace Reckoner

section Names

variable {known wider : String → Bool} {ending : Ending} {n : Nat} {phrase : Phrase}
  {pre rest : List Located} {t : Located} {e : EvalError}

theorem namesKnown_sign {sign : Sign} (h : t.token.sign? = some sign) :
    NamesKnown known (t :: rest) ↔ NamesKnown known rest := by
  refine namesKnown_cons.trans (and_iff_right fun name hname => ?_)
  rw [hname] at h
  cases h

theorem namesKnown_operator {tier : Tier} {op : Operator}
    (h : Operator.ofTier? tier t.token = some op) :
    NamesKnown known (t :: rest) ↔ NamesKnown known rest := by
  refine namesKnown_cons.trans (and_iff_right fun name hname => ?_)
  rw [hname] at h
  cases h

theorem Fails.names (h : Fails known ending n phrase pre rest e) : NamesKnown known pre := by
  induction h with
  | operand h | unknown h hname | tooDeep h => exact namesKnown_nil known
  | number h hending => simp [h, namesKnown_nil]
  | group hl h ih => simp [hl, ih]
  | unclosed hl h hstops hadvance hr => simp [hl, h.names]
  | closed hl h hr hending => simp [hl, hr, h.names, namesKnown_nil]
  | call ht hname h ih => simp [ht, hname, ih]
  | base h ih => exact ih
  | tooHigh hbase ht hadvance => exact hbase.names
  | caret hbase ht hending => simp [hbase.names, ht, namesKnown_nil]
  | exponent hbase ht h ih => simp [hbase.names, ht, ih]
  | unsigned hsign h ih => exact ih
  | signed ht h ih => exact (namesKnown_sign ht).mpr ih
  | first joins h ih => exact ih
  | further joins hleft ht h ih =>
    exact namesKnown_append.mpr ⟨hleft.names, (namesKnown_operator ht).mpr ih⟩

/-- A failure stays one when fewer names are known, if those that were read still are and the one
in front of which it shows is known or unknown as before. -/
theorem Fails.narrow (h : Fails wider ending n phrase pre rest e)
    (hhead : ∀ t ∈ rest.head?, ∀ name, t.token = .identifier name → known name = wider name)
    (hpre : NamesKnown known pre) : Fails known ending n phrase pre rest e := by
  induction h with
  | operand h => exact .operand h
  | unknown h hname => exact .unknown h ((hhead _ rfl _ h).trans hname)
  | tooDeep h =>
    exact .tooDeep (h.imp_right fun ⟨name, ht, hname⟩ =>
      ⟨name, ht, (hhead _ rfl name ht).trans hname⟩)
  | number h hending => exact .number h hending
  | group hl h ih => exact .group hl (ih hhead (namesKnown_cons.mp hpre).2)
  | unclosed hl h hstops hadvance hr =>
    exact .unclosed hl ⟨h.derives, h.levels, (namesKnown_cons.mp hpre).2⟩ hstops hadvance hr
  | closed hl h hr hending =>
    have hinside := (namesKnown_append.mp (namesKnown_cons.mp hpre).2).1
    exact .closed hl ⟨h.derives, h.levels, hinside⟩ hr hending
  | @call n t name pre rest e ht hname h ih =>
    rw [namesKnown_cons] at hpre
    exact .call ht (hpre.1 name ht) (ih hhead hpre.2)
  | base h ih => exact .base (ih hhead hpre)
  | tooHigh hbase ht hadvance => exact .tooHigh ⟨hbase.derives, hbase.levels, hpre⟩ ht hadvance
  | caret hbase ht hending =>
    exact .caret ⟨hbase.derives, hbase.levels, (namesKnown_append.mp hpre).1⟩ ht hending
  | exponent hbase ht h ih =>
    rw [namesKnown_append, namesKnown_cons] at hpre
    exact .exponent ⟨hbase.derives, hbase.levels, hpre.1⟩ ht (ih hhead hpre.2.2)
  | unsigned hsign h ih => exact .unsigned hsign (ih hhead hpre)
  | signed ht h ih => exact .signed ht (ih hhead (namesKnown_cons.mp hpre).2)
  | first joins h ih => exact .first joins (ih hhead hpre)
  | further joins hleft ht h ih =>
    rw [namesKnown_append, namesKnown_cons] at hpre
    exact .further joins ⟨hleft.derives, hleft.levels, hpre.1⟩ ht (ih hhead hpre.2.2)

theorem Input.Rejects.names (h : Rejects known ending pre rest e) : NamesKnown known pre := by
  cases h with
  | inside h => exact h.names
  | behind h hstops => exact h.names

theorem Input.Rejects.narrow (h : Rejects wider ending pre rest e)
    (hhead : ∀ t ∈ rest.head?, ∀ name, t.token = .identifier name → known name = wider name)
    (hpre : NamesKnown known pre) : Rejects known ending pre rest e := by
  cases h with
  | inside h => exact .inside (h.narrow hhead hpre)
  | behind h hstops => exact .behind ⟨h.derives, h.levels, hpre⟩ hstops

theorem Input.Ordered.exists_between {input : Input} {pre' rest' : List Located}
    (h : input.Ordered) (htokens : pre ++ rest = input.tokens)
    (htokens' : pre' ++ rest' = input.tokens)
    (hlt : input.ending.place rest' < input.ending.place rest) :
    ∃ t between, pre = pre' ++ t :: between ∧ rest' = t :: (between ++ rest) := by
  rcases List.append_eq_append_iff.mp (htokens.trans htokens'.symm) with
    ⟨between, rfl, rfl⟩ | ⟨between, rfl, rfl⟩
  · cases between with
    | nil => exact absurd hlt (Nat.lt_irrefl _)
    | cons t between =>
      have hbehind := h.lt_place (t := t) htokens' (by simp)
      exact absurd hlt (Nat.lt_asymm hbehind)
  · cases between with
    | nil => exact absurd hlt (Nat.lt_irrefl _)
    | cons t between => exact ⟨t, between, rfl, rfl⟩

end Names

namespace FunctionTable

variable (functions other : FunctionTable)

/-- Every function is in the other table too, under the same name. -/
def Within : Prop := ∀ name f, functions.get? name = some f → other.get? name = some f

/-- The same input is read with either table up to a name that is unknown to the first alone. -/
def readingBetween {input : Input} {passes : EvalError → Prop}
    (hnames : ∀ t ∈ input.tokens, ∀ name, t.token = .identifier name →
      functions.Agree other name ∨
        functions.get? name = none ∧ passes ⟨t.position, .unknownFunction name⟩) :
    Meaning.Simulation functions.meaning other.meaning input.ending input.ending where
  toTracking := functions.trackingBetween other
    { token := fun t t' => t' = t ∧ t ∈ input.tokens
      tokens := fun rest others => others = rest ∧ rest ⊆ input.tokens
      error := fun e f => f = e
      passes := passes
      tokens_cons := fun {t rest _} h =>
        ⟨t, rest, h.1, ⟨rfl, h.2 List.mem_cons_self⟩, rfl,
          List.Subset.trans (List.subset_cons_self _ _) h.2⟩
      tokens_end := fun h => h.1 ▸ .alike (Ending.alike_self input.ending)
      token_eq := fun h => congrArg Located.token h.1
      error_at := fun h _ _ => by rw [h.1] }
    fun h htoken => hnames _ h.2 _ htoken
  tokens_nil h := .inr ⟨h.1, Ending.alike_self input.ending⟩

/-- What the first table comes to, the second does too, unless it is an error that passes. -/
theorem follows_evaluate {source : String} {separator : Separator} {passes : EvalError → Prop}
    (hnames : ∀ t ∈ (Input.ofSource separator.char source).tokens,
      ∀ name, t.token = .identifier name → functions.Agree other name ∨
        functions.get? name = none ∧ passes ⟨t.position, .unknownFunction name⟩) :
    Follows passes (fun e f => f = e) (fun v w => w = v) (evaluate source separator functions)
      (evaluate source separator other) :=
  (functions.readingBetween other hnames).follows_read ⟨rfl, List.Subset.refl _⟩

end FunctionTable

section Sources

variable {source : String} {separator : Separator} {functions other : FunctionTable}

theorem evaluate_of_agree
    (hagree : ∀ l ∈ lexemes separator.char source, ∀ name, l.content = .ok (.identifier name) →
      functions.Agree other name) :
    evaluate source separator other = evaluate source separator functions := by
  have hfollows : Follows (fun _ => False) (fun e f => f = e) (fun v w => w = v)
      (evaluate source separator functions) (evaluate source separator other) := by
    refine functions.follows_evaluate other fun t ht name hname => ?_
    obtain ⟨l, hl, hcontent, -⟩ := Input.mem_lexemes_of_mem_tokens ht
    exact .inl (hagree l hl name (hname ▸ hcontent))
  cases hread : evaluate source separator functions with
  | ok v =>
    rw [hread] at hfollows
    obtain ⟨w, hw, rfl⟩ := hfollows
    exact hw
  | error e =>
    rw [hread] at hfollows
    obtain hnever | ⟨f, hf, rfl⟩ := hfollows
    · exact hnever.elim
    · exact hf

theorem letters_of_identifier {l : Lexeme} {name : String} (hl : l ∈ lexemes separator.char source)
    (hcontent : l.content = .ok (.identifier name)) :
    name ≠ "" ∧ ∀ c ∈ name.toList, c.isAlpha = true := by
  obtain ⟨front, c, cs, -, -, rfl⟩ := exists_scan_of_mem hl
  simp only [scan_eq, readLexeme] at hcontent
  cases hkind : LexemeKind.ofStart separator.char c with
  | number =>
    rcases readNumber_cases separator.char (c :: cs.takeWhile
      (LexemeKind.number.continuesWith separator.char)) with ⟨value, hread⟩ | hread <;>
      simp [hkind, hread] at hcontent
  | identifier =>
    have hc : c.isAlpha = true := by
      by_contra hc
      by_cases hdigit : c.isDigit = true
      · simp [LexemeKind.ofStart, hdigit] at hkind
      · simp only [LexemeKind.ofStart, if_neg hdigit, if_neg hc] at hkind
        split at hkind
        · cases hkind
        · split at hkind <;> cases hkind
    simp only [hkind, Except.ok.injEq, Token.identifier.injEq] at hcontent
    subst hcontent
    refine ⟨by simp, ?_⟩
    rw [String.toList_ofList, List.forall_mem_cons]
    exact ⟨hc, fun d hd => List.mem_takeWhile_imp hd⟩
  | symbol s => simp [hkind] at hcontent
  | unknown => simp [hkind] at hcontent

/-- A name that is not made of letters is never looked up. -/
theorem evaluate_register {name : String} (hname : name = "" ∨ ∃ c ∈ name.toList, c.isAlpha = false)
    (f : Float → Float) :
    evaluate source separator (functions.register name f) =
      evaluate source separator functions := by
  refine evaluate_of_agree fun l hl other hother => ?_
  obtain ⟨hne, hletters⟩ := letters_of_identifier hl hother
  rw [FunctionTable.Agree, FunctionTable.get?_register, if_neg]
  rintro rfl
  rcases hname with rfl | ⟨c, hc, hletter⟩
  · exact hne rfl
  · rw [hletters c hc] at hletter
    cases hletter

/-- With further functions, the same is found unless a name was unknown. -/
theorem evaluate_of_within (source : String) (separator : Separator)
    (hwithin : functions.Within other) :
    Follows (fun e => ∃ name, e.cause = .unknownFunction name) (fun e f => f = e)
      (fun v w => w = v) (evaluate source separator functions)
      (evaluate source separator other) := by
  refine functions.follows_evaluate other fun t ht name hname => ?_
  cases hget : functions.get? name with
  | none => exact .inr ⟨rfl, name, rfl⟩
  | some f => exact .inl ((hwithin name f hget).trans hget.symm)

/-- With further functions, nothing is wrong in front of a name that was unknown but divisions. -/
theorem unknown_le_position (hwithin : functions.Within other) {p : Nat} {name : String}
    {e : EvalError}
    (hunknown : evaluate source separator functions = .error ⟨p, .unknownFunction name⟩)
    (he : evaluate source separator other = .error e) (hcause : e.cause ≠ .divisionByZero) :
    p ≤ e.position := by
  obtain ⟨pre, rest, htokens, h⟩ := rejects_of_evaluate hunknown nofun
  obtain ⟨pre', rest', htokens', h'⟩ := rejects_of_evaluate he hcause
  have hplace : p = (Input.ofSource separator.char source).ending.place rest := h.located.1
  rw [hplace, h'.located.1]
  refine Nat.le_of_not_lt fun hlt => ?_
  obtain ⟨t, between, rfl, rfl⟩ :=
    (Input.ofSource_ordered separator.char source).exists_between htokens htokens' hlt
  -- The names in front of `t` and `t` itself were read, so they are in both tables.
  have hnames := h.names
  rw [namesKnown_append, namesKnown_cons] at hnames
  have hknown : ∀ name, functions.contains name = true → other.contains name = true := by
    intro name hname
    obtain ⟨f, hf⟩ := Option.isSome_iff_exists.mp hname
    exact Option.isSome_iff_exists.mpr ⟨f, hwithin name f hf⟩
  have hhead : ∀ t' ∈ (t :: (between ++ rest)).head?, ∀ name, t'.token = .identifier name →
      functions.contains name = other.contains name := by
    intro t' ht' name hname
    cases ht'
    have := hnames.2.1 name hname
    rw [this, hknown name this]
  have hnarrow := h'.narrow hhead hnames.1
  have hsame := (parse_of_rejects htokens h).symm.trans (parse_of_rejects htokens' hnarrow)
  rw [← h'.located.1, ← Except.error.inj hsame, ← hplace] at hlt
  exact Nat.lt_irrefl p hlt

end Sources

/-- Only the functions under the names in a source matter to it, so a name that is not made of
letters never does. Further functions change no outcome but that a name is unknown; in its place
there is a value, an error that is not in front of the name, or a division by zero. -/
theorem evaluate_tables (source : String) (separator : Separator)
    (functions other : FunctionTable) :
    ((∀ l ∈ lexemes separator.char source, ∀ name, l.content = .ok (.identifier name) →
        other.get? name = functions.get? name) →
      evaluate source separator other = evaluate source separator functions) ∧
    (∀ name f, (name = "" ∨ ∃ c ∈ name.toList, c.isAlpha = false) →
      evaluate source separator (functions.register name f) =
        evaluate source separator functions) ∧
    (functions.Within other →
      (∀ v, evaluate source separator functions = .ok v →
        evaluate source separator other = .ok v) ∧
      (∀ e, evaluate source separator functions = .error e →
        (∀ name, e.cause ≠ .unknownFunction name) →
        evaluate source separator other = .error e) ∧
      (∀ p name, evaluate source separator functions = .error ⟨p, .unknownFunction name⟩ →
        (∃ v, evaluate source separator other = .ok v) ∨
          ∃ e, evaluate source separator other = .error e ∧
            (p ≤ e.position ∨ e.cause = .divisionByZero))) := by
  refine ⟨evaluate_of_agree, fun name f hname => evaluate_register hname f, fun hwithin => ?_⟩
  have hfollows := evaluate_of_within source separator hwithin
  refine ⟨fun v hv => ?_, fun e he hcause => ?_, fun p name hunknown => ?_⟩
  · rw [hv] at hfollows
    obtain ⟨w, hw, rfl⟩ := hfollows
    exact hw
  · rw [he] at hfollows
    obtain ⟨name, hname⟩ | ⟨f, hf, rfl⟩ := hfollows
    · exact absurd hname (hcause name)
    · exact hf
  · cases hread : evaluate source separator other with
    | ok v => exact .inl ⟨v, rfl⟩
    | error e =>
      refine .inr ⟨e, rfl, ?_⟩
      by_cases hcause : e.cause = .divisionByZero
      · exact .inr hcause
      · exact .inl (unknown_le_position hwithin hunknown hread hcause)

/-- Registering a name reveals an error in front of the one that the name was. -/
example : evaluate "1 / (0 * f 2)" .point .empty = .error ⟨9, .unknownFunction "f"⟩ ∧
    evaluate "1 / (0 * f 2)" .point (FunctionTable.empty.register "f" id) =
      .error ⟨2, .divisionByZero⟩ := by
  decide +kernel

end Reckoner

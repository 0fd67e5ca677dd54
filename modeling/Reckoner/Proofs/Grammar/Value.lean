import Reckoner.Proofs.Grammar.Reading

/-!
# Trees and their values

Two meanings of the productions. Building trees, a derivation denotes its own tree. Computing, it
denotes the value of that tree; the rules of `Yields` say which value that is, and those of
`DividesByZeroAt` which division by zero is met first if there is one.
-/
namespace Reckoner

namespace Operator

theorem apply_eq_error_iff {op : Operator} {position : Nat} {a b : Float} {e : EvalError} :
    op.apply position a b = .error e ↔
      (op = .div ∨ op = .mod) ∧ (b == 0) = true ∧ e = ⟨position, .divisionByZero⟩ := by
  cases op with
  | add | sub | mul | pow => simp [apply]
  | div | mod => cases hb : b == 0 <;> simp [apply, hb, @eq_comm _ e]

theorem token_of_division {op : Operator} {token : Token} (h : ofToken? token = some op)
    (hop : op = .div ∨ op = .mod) : token = .symbol .slash ∨ token = .symbol .percent := by
  cases token with
  | number value => cases h
  | identifier name => cases h
  | symbol s =>
    cases s with
    | slash => exact .inl rfl
    | percent => exact .inr rfl
    | _ => rcases hop with rfl | rfl <;> cases h

/-- Where an operator stands does not matter to what it computes. -/
theorem apply_ok_elsewhere {op : Operator} {position : Nat} {a b v : Float}
    (h : op.apply position a b = .ok v) (other : Nat) : op.apply other a b = .ok v := by
  cases op with
  | add | sub | mul | pow => exact h
  | div | mod =>
    cases hb : b == 0 with
    | true => simp [apply, hb] at h
    | false => simpa [apply, hb] using h

end Operator

namespace Expr

/-- The value of a tree: operands before operators, and no divisor equal to zero. -/
inductive Yields (functions : FunctionTable) : Expr → Float → Prop where
  | number {v : Float} : Yields functions (.number v) v
  | plus {e : Expr} {v : Float} (h : Yields functions e v) : Yields functions (.signed .plus e) v
  | minus {e : Expr} {v : Float} (h : Yields functions e v) :
      Yields functions (.signed .minus e) (-v)
  | group {e : Expr} {v : Float} (h : Yields functions e v) : Yields functions (.group e) v
  | call {position : Nat} {name : String} {e : Expr} {v : Float} {f : Float → Float}
      (hf : functions.get? name = some f) (h : Yields functions e v) :
      Yields functions (.call position name e) (f v)
  | add {position : Nat} {l r : Expr} {v w : Float} (hl : Yields functions l v)
      (hr : Yields functions r w) : Yields functions (.binary .add position l r) (v + w)
  | sub {position : Nat} {l r : Expr} {v w : Float} (hl : Yields functions l v)
      (hr : Yields functions r w) : Yields functions (.binary .sub position l r) (v - w)
  | mul {position : Nat} {l r : Expr} {v w : Float} (hl : Yields functions l v)
      (hr : Yields functions r w) : Yields functions (.binary .mul position l r) (v * w)
  | div {position : Nat} {l r : Expr} {v w : Float} (hl : Yields functions l v)
      (hr : Yields functions r w) (hw : (w == 0) = false) :
      Yields functions (.binary .div position l r) (v / w)
  | mod {position : Nat} {l r : Expr} {v w : Float} (hl : Yields functions l v)
      (hr : Yields functions r w) (hw : (w == 0) = false) :
      Yields functions (.binary .mod position l r) (Binary64.remainder v w)
  | pow {position : Nat} {l r : Expr} {v w : Float} (hl : Yields functions l v)
      (hr : Yields functions r w) : Yields functions (.binary .pow position l r) (v.pow w)

/-- The first division or remainder, in the order of evaluation, whose right operand is zero. -/
inductive DividesByZeroAt (functions : FunctionTable) : Expr → Nat → Prop where
  | signed {sign : Sign} {e : Expr} {p : Nat} (h : DividesByZeroAt functions e p) :
      DividesByZeroAt functions (.signed sign e) p
  | group {e : Expr} {p : Nat} (h : DividesByZeroAt functions e p) :
      DividesByZeroAt functions (.group e) p
  | call {position : Nat} {name : String} {e : Expr} {p : Nat} {f : Float → Float}
      (hf : functions.get? name = some f) (h : DividesByZeroAt functions e p) :
      DividesByZeroAt functions (.call position name e) p
  | left {op : Operator} {position : Nat} {l r : Expr} {p : Nat}
      (h : DividesByZeroAt functions l p) : DividesByZeroAt functions (.binary op position l r) p
  | right {op : Operator} {position : Nat} {l r : Expr} {v : Float} {p : Nat}
      (hl : Yields functions l v) (h : DividesByZeroAt functions r p) :
      DividesByZeroAt functions (.binary op position l r) p
  | here {op : Operator} {position : Nat} {l r : Expr} {v w : Float} (hl : Yields functions l v)
      (hr : Yields functions r w) (hop : op = .div ∨ op = .mod) (hw : (w == 0) = true) :
      DividesByZeroAt functions (.binary op position l r) position

variable {functions : FunctionTable}

theorem evaluate_of_yields {tree : Expr} {v : Float} (h : Yields functions tree v) :
    tree.evaluate functions = .ok v := by
  induction h with
  | number => rfl
  | plus h ih | minus h ih => rw [evaluate, ih]; rfl
  | group h ih => exact ih
  | call hf h ih => rw [evaluate, hf, ih]; rfl
  | add hl hr ihl ihr | sub hl hr ihl ihr | mul hl hr ihl ihr | pow hl hr ihl ihr =>
    rw [evaluate, ihl, ihr]; rfl
  | div hl hr hw ihl ihr | mod hl hr hw ihl ihr =>
    rw [evaluate, ihl, ihr]
    simp [Operator.apply, hw]

theorem yields_of_evaluate {tree : Expr} {v : Float} (h : tree.evaluate functions = .ok v) :
    Yields functions tree v := by
  induction tree generalizing v with
  | number value => cases h; exact .number
  | signed sign e ih =>
    obtain ⟨w, hw, h⟩ := bind_eq_ok.mp h
    cases h
    cases sign with
    | plus => exact .plus (ih hw)
    | minus => exact .minus (ih hw)
  | group e ih => exact .group (ih h)
  | call position name e ih =>
    rw [evaluate] at h
    cases hf : functions.get? name with
    | none => simp [hf] at h
    | some f =>
      rw [hf] at h
      obtain ⟨w, hw, h⟩ := bind_eq_ok.mp h
      cases h
      exact .call hf (ih hw)
  | binary op position l r ihl ihr =>
    obtain ⟨a, ha, h⟩ := bind_eq_ok.mp h
    obtain ⟨b, hb, h⟩ := bind_eq_ok.mp h
    have hl := ihl ha
    have hr := ihr hb
    cases op with
    | add => cases h; exact .add hl hr
    | sub => cases h; exact .sub hl hr
    | mul => cases h; exact .mul hl hr
    | pow => cases h; exact .pow hl hr
    | div =>
      cases hzero : b == 0 with
      | true => simp [Operator.apply, hzero] at h
      | false =>
        simp only [Operator.apply, hzero] at h
        cases h
        exact .div hl hr hzero
    | mod =>
      cases hzero : b == 0 with
      | true => simp [Operator.apply, hzero] at h
      | false =>
        simp only [Operator.apply, hzero] at h
        cases h
        exact .mod hl hr hzero

theorem yields_iff {tree : Expr} {v : Float} :
    Yields functions tree v ↔ tree.evaluate functions = .ok v :=
  ⟨evaluate_of_yields, yields_of_evaluate⟩

theorem dividesByZeroAt_of_evaluate {tree : Expr} {p : Nat}
    (h : tree.evaluate functions = .error ⟨p, .divisionByZero⟩) :
    DividesByZeroAt functions tree p := by
  induction tree with
  | number value => cases h
  | signed sign e ih =>
    rw [evaluate] at h
    rcases bind_eq_error.mp h with he | ⟨v, -, hv⟩
    · exact .signed (ih he)
    · cases hv
  | group e ih => exact .group (ih h)
  | call position name e ih =>
    rw [evaluate] at h
    cases hf : functions.get? name with
    | none => simp [hf] at h
    | some f =>
      rw [hf] at h
      rcases bind_eq_error.mp h with he | ⟨v, -, hv⟩
      · exact .call hf (ih he)
      · cases hv
  | binary op position l r ihl ihr =>
    rw [evaluate] at h
    rcases bind_eq_error.mp h with hl | ⟨v, hl, h⟩
    · exact .left (ihl hl)
    · rcases bind_eq_error.mp h with hr | ⟨w, hr, h⟩
      · exact .right (yields_iff.mpr hl) (ihr hr)
      · obtain ⟨hop, hw, he⟩ := Operator.apply_eq_error_iff.mp h
        cases he
        exact .here (yields_iff.mpr hl) (yields_iff.mpr hr) hop hw

theorem building_knows (known : String → Bool) : (building known).Knows known := by
  intro position name
  cases h : known name <;> simp [building, h]

theorem denote_building {known : String → Bool} {phrase : Phrase} {used : List Located}
    {tree : Expr} (h : Derives phrase used tree) (hnames : NamesKnown known used) :
    (building known).denote tree = .ok tree := by
  induction h with
  | number h => rfl
  | group hl inside hr ih =>
    rw [Meaning.denote, ih (by simp_all)]
    rfl
  | @call t name tokens e h argument ih =>
    rw [namesKnown_cons] at hnames
    have hcall : (building known).call? t.position name = some (.call t.position name) := by
      simp [building, hnames.1 name h]
    rw [Meaning.denote, ih hnames.2, hcall]
    rfl
  | base h ih => exact ih hnames
  | raised base h exponent ihb ihe =>
    rw [namesKnown_append, namesKnown_cons] at hnames
    rw [Meaning.denote, ihb hnames.1, ihe hnames.2.2]
    rfl
  | unsigned h ih => exact ih hnames
  | signed h power ih =>
    rw [Meaning.denote, ih (namesKnown_cons.mp hnames).2]
    rfl
  | operand joins h ih => exact ih hnames
  | joined joins left h right ihl ihr =>
    rw [namesKnown_append, namesKnown_cons] at hnames
    rw [Meaning.denote, ihl hnames.1, ihr hnames.2.2]
    rfl

end Expr

/-- With all names known and levels enough, every derivation is read to its end and built. -/
theorem Derives.reader_building {phrase : Phrase} {tokens : List Located} {tree : Expr} {n : Nat}
    (h : Derives phrase tokens tree) (hn : tokens.length ≤ n) (position : Nat) :
    (Expr.building fun _ => true).reader (.finish position) n phrase tokens = .ok (tree, []) := by
  have hadmits := Admits.of_derives h hn
  have hread := Meaning.reader_of_admits (Expr.building_knows _) hadmits (Phrase.clear_nil _)
    (Ending.advance_finish position [])
  rwa [List.append_nil, Expr.denote_building h hadmits.names] at hread

/-- The grammar is unambiguous: building is a function, and it builds every derivation. -/
theorem Derives.unique {phrase : Phrase} {tokens : List Located} {tree other : Expr}
    (h : Derives phrase tokens tree) (hother : Derives phrase tokens other) : tree = other := by
  have hn := Nat.le_refl tokens.length
  have := (h.reader_building hn 0).symm.trans (hother.reader_building hn 0)
  cases this
  rfl

namespace FunctionTable

variable (functions : FunctionTable)

theorem meaning_knows : functions.meaning.Knows functions.contains :=
  fun _ _ => rfl

theorem denote_meaning (tree : Expr) : functions.meaning.denote tree = tree.evaluate functions := by
  induction tree with
  | number value => rfl
  | signed sign e ih => rw [Meaning.denote, Expr.evaluate, ih]
  | group e ih =>
    rw [Meaning.denote, Expr.evaluate, ih]
    cases e.evaluate functions <;> rfl
  | call position name e ih =>
    have hcall : functions.meaning.call? position name = functions.get? name := rfl
    rw [Meaning.denote, Expr.evaluate, ih, hcall]
    cases functions.get? name <;> rfl
  | binary op position l r ihl ihr =>
    rw [Meaning.denote, Expr.evaluate, ihl, ihr]
    rfl

theorem refuses_meaning {tokens : List Located} {e : EvalError}
    (h : functions.meaning.Refuses tokens e) :
    ∃ t ∈ tokens, (t.token = .symbol .slash ∨ t.token = .symbol .percent) ∧
      e = ⟨t.position, .divisionByZero⟩ := by
  obtain ⟨t, ht, op, a, b, hop, he⟩ := h
  obtain ⟨hdiv, -, rfl⟩ := Operator.apply_eq_error_iff.mp he
  exact ⟨t, ht, Operator.token_of_division hop hdiv, rfl⟩

end FunctionTable

end Reckoner

import Reckoner.Proofs.Grammar.Enclosure
import Reckoner.Proofs.Grammar.Input
import Reckoner.Proofs.LexicalGrammar

/-!
# Sources put together

Brackets shut a source off from everything around it. Main statement: sources with values, put in
brackets and joined by an operator or behind a name, come to what the operator or the function makes
of the values, unless the levels run out, and an error stays the error that it is.
-/
namespace Reckoner

section Items

variable (separator : Separator) (start : Nat)

theorem items_bracketed (source : String) (rest : List Char) :
    (lexemesFrom separator.char start ('(' :: (source.toList ++ ')' :: rest))).map Lexeme.item =
      .ok ⟨.symbol .lparen, start⟩ ::
        (((lexemes separator.char source).map Lexeme.item).map (relocateItem (· + (start + 1))) ++
          .ok ⟨.symbol .rparen, start + 1 + byteLength source.toList⟩ ::
            (lexemesFrom separator.char (start + 1 + byteLength source.toList + 1) rest).map
              Lexeme.item) := by
  have hmoved := lexemesFrom_add separator.char (start + 1) 0 source.toList
  rw [Nat.zero_add] at hmoved
  rw [lexemesFrom_bracketed, hmoved, List.map_cons, List.map_append, Lexeme.items_relocate]
  rfl

/-- The tokens of a source in brackets that open at a byte offset. -/
def bracketed (source : String) (tokens : List Located) : List Located :=
  ⟨.symbol .lparen, start⟩ :: (tokens.map (.relocate (· + (start + 1))) ++
    [⟨.symbol .rparen, start + 1 + byteLength source.toList⟩])

theorem bracketed_unsigned (source : String) (tokens more : List Located) :
    ∀ t ∈ (bracketed start source tokens ++ more).head?, t.token.sign? = none := by
  simp [bracketed, Token.sign?]

theorem items_bracketed_tokens {source : String} {tokens : List Located}
    (h : (lexemes separator.char source).map Lexeme.item = tokens.map .ok) (rest : List Char) :
    (lexemesFrom separator.char start ('(' :: (source.toList ++ ')' :: rest))).map Lexeme.item =
      (bracketed start source tokens).map .ok ++
        (lexemesFrom separator.char (start + 1 + byteLength source.toList + 1) rest).map
          Lexeme.item := by
  rw [items_bracketed, h]
  simp [bracketed, relocateItem, Function.comp_def]

end Items

/-- Behind the items of a source, a closing bracket stands where its tokens end, unless a fault
does. -/
theorem Input.endsWith_bracket (move : Nat → Nat) {r : Located} (hr : r.token = .symbol .rparen)
    (p q : Nat) (items more : List (Except EvalError Located)) :
    ∃ behind, (ofItems q (items.map (relocateItem move) ++ .ok r :: more)).tokens =
        (ofItems p items).tokens.map (.relocate move) ++ behind ∧
      Meaning.EndsWith (·.cause = .endOfExpression) (fun e f => f = e.relocate move)
        (ofItems p items).ending
        (ofItems q (items.map (relocateItem move) ++ .ok r :: more)).ending behind := by
  induction items with
  | nil => exact ⟨_, rfl, .closing rfl rfl hr⟩
  | cons item items ih =>
    cases item with
    | error e => exact ⟨[], rfl, .alike (.fault rfl)⟩
    | ok t =>
      obtain ⟨behind, htokens, hends⟩ := ih
      exact ⟨behind, congrArg (t.relocate move :: ·) htokens, hends⟩

/-- A cause that lies in an expression, whatever is around it. -/
def Cause.liesInside : Cause → Bool
  | .notANumber _ | .unknownFunction _ | .divisionByZero | .malformedNumber _
  | .unknownCharacter _ => true
  | .endOfExpression | .missingBracket | .trailingInput _ | .nestingTooDeep _ => false

section Sources

variable {separator : Separator} {functions : FunctionTable} {source : String} {v w : Float}
  {e : EvalError}

/-- A source with a value is tokens that are read to their end if the levels suffice for its
tree. -/
theorem tokens_of_evaluate (hv : evaluate source separator functions = .ok v) :
    ∃ tokens tree, (lexemes separator.char source).map Lexeme.item = tokens.map .ok ∧
      Expr.parse source separator functions = .ok tree ∧
      ∀ position n, Limited (tree.levels ≤ n) (.ok (v, []))
        (functions.meaning.reader (.finish position) n .expression tokens) := by
  obtain ⟨tree, h, htree⟩ := accepts_of_evaluate hv
  refine ⟨_, tree, items_of_accepts h, parse_of_accepts h, fun position n => ?_⟩
  have hlimited := Meaning.reader_limited functions.meaning_knows h.admits.derives h.admits.names
    ((functions.denote_meaning tree).trans htree) (Phrase.clear_nil _)
    (Ending.advance_finish position []) n
  rwa [List.append_nil] at hlimited

theorem reader_of_bracketed {tokens : List Located} {allowed : Prop} {position n : Nat}
    (h : Limited allowed (.ok (v, []))
      (functions.meaning.reader (.finish position) n .expression tokens))
    (source : String) (start stop : Nat) (more : List Located) :
    ∃ x, Limited allowed (.ok v) x ∧
      functions.meaning.reader (.finish stop) (n + 1) .atom
        (bracketed start source tokens ++ more) = x >>= fun v => .ok (v, more) := by
  rw [bracketed, List.cons_append, List.append_assoc]
  exact functions.reader_bracketed _ rfl rfl h stop

theorem evaluate_binary {s t : String} (hv : evaluate s separator functions = .ok v)
    (hw : evaluate t separator functions = .ok w) {symbol : Symbol} {op : Operator}
    (hop : Operator.ofToken? (.symbol symbol) = some op) :
    ∃ left right, Expr.parse s separator functions = .ok left ∧
      Expr.parse t separator functions = .ok right ∧
      Limited (left.levels < nestingLimit ∧ right.levels + op.opens < nestingLimit)
        (op.apply (byteLength s.toList + 2) v w)
        (evaluate ("(" ++ s ++ ")" ++ String.singleton symbol.char ++ "(" ++ t ++ ")") separator
          functions) := by
  obtain ⟨tokens, left, hitems, hleft, hread⟩ := tokens_of_evaluate hv
  obtain ⟨others, right, hothers, hright, hreadRight⟩ := tokens_of_evaluate hw
  refine ⟨left, right, hleft, hright, ?_⟩
  let source := "(" ++ s ++ ")" ++ String.singleton symbol.char ++ "(" ++ t ++ ")"
  let place := byteLength s.toList + 2
  have hsource : source.toList =
      '(' :: (s.toList ++ ')' :: symbol.char :: '(' :: (t.toList ++ ')' :: [])) := by
    simp [source]
  have hplace : 0 + 1 + byteLength s.toList + 1 = place := by omega
  have hall : (lexemes separator.char source).map Lexeme.item =
      (bracketed 0 s tokens ++ ⟨.symbol symbol, place⟩ ::
        bracketed (place + 1) t others).map .ok := by
    rw [lexemes, hsource, items_bracketed_tokens separator 0 hitems, hplace, lexemesFrom_symbol,
      List.map_cons, items_bracketed_tokens separator _ hothers, lexemesFrom_nil]
    simp [Lexeme.item]
  obtain ⟨n, hn⟩ : ∃ n, n + 1 = nestingLimit := ⟨127, rfl⟩
  obtain ⟨k, hk⟩ : ∃ k, k + 1 + op.opens = n + 1 :=
    ⟨n - op.opens, by cases op <;> simp only [nestingLimit, Operator.opens] at hn ⊢ <;> omega⟩
  obtain ⟨x, hx, hatom⟩ := reader_of_bracketed (hread 0 n) s 0 (byteLength source.toList)
    (⟨.symbol symbol, place⟩ :: bracketed (place + 1) t others)
  obtain ⟨y, hy, hatomRight⟩ := reader_of_bracketed (hreadRight 0 k) t (place + 1)
    (byteLength source.toList) []
  rw [List.append_nil] at hatomRight
  have hboth := Meaning.reader_binary hk hop (bracketed_unsigned _ _ _ _)
    (by simpa using bracketed_unsigned _ _ _ []) hatom hatomRight
  rw [hn] at hboth
  have hvalue : evaluate source separator functions =
      x >>= fun v => y >>= fun w => op.apply place v w := by
    rw [evaluate, Input.ofSource_of_items hall]
    exact Meaning.read_of_reader hboth
  have hlimited : Limited (left.levels ≤ n ∧ right.levels ≤ k) (op.apply place v w)
      (x >>= fun v => y >>= fun w => op.apply place v w) :=
    hx.bind (hy.on_value (op.apply place v))
  rw [← hvalue] at hlimited
  refine hlimited.congr ?_
  omega

/-- A known name in front of a source in brackets comes to what its function makes of the value. The
name is one letter or more, for nothing at all in front of a bracket is no call. -/
theorem evaluate_call {s name : String} {f : Float → Float}
    (hv : evaluate s separator functions = .ok v) (hf : functions.get? name = some f)
    (hne : name ≠ "") (hletters : ∀ c ∈ name.toList, c.isAlpha = true) :
    ∃ tree, Expr.parse s separator functions = .ok tree ∧
      Limited (tree.levels + 1 < nestingLimit) (.ok (f v))
        (evaluate (name ++ "(" ++ s ++ ")") separator functions) := by
  obtain ⟨tokens, tree, hitems, htree, hread⟩ := tokens_of_evaluate hv
  refine ⟨tree, htree, ?_⟩
  let source := name ++ "(" ++ s ++ ")"
  let place := byteLength name.toList
  have hsource : source.toList = name.toList ++ '(' :: (s.toList ++ ')' :: []) := by
    simp [source]
  have hrun : Run Char.isAlpha name.toList ('(' :: (s.toList ++ ')' :: [])) :=
    ⟨by simpa using hne, hletters, by rintro c ⟨⟩; rfl⟩
  have hall : (lexemes separator.char source).map Lexeme.item =
      (⟨.identifier name, 0⟩ :: bracketed place s tokens).map .ok := by
    rw [lexemes, hsource, items_of_letters hrun, Nat.zero_add,
      items_bracketed_tokens separator place hitems, lexemesFrom_nil]
    simp
  obtain ⟨n, hn⟩ : ∃ n, n + 1 + 1 = nestingLimit := ⟨126, rfl⟩
  obtain ⟨x, hx, hatom⟩ := reader_of_bracketed (hread 0 n) s place (byteLength source.toList) []
  rw [List.append_nil] at hatom
  have hcall : functions.meaning.reader (.finish (byteLength source.toList)) nestingLimit .atom
      (⟨.identifier name, 0⟩ :: bracketed place s tokens) =
        (x >>= fun v => .ok (f v)) >>= fun u => .ok (u, []) := by
    rw [← hn, Meaning.reader_call rfl hf, hatom]
    simp only [bind_assoc, ok_bind]
  have hvalue : evaluate source separator functions = x >>= fun v => .ok (f v) := by
    rw [evaluate, Input.ofSource_of_items hall]
    exact Meaning.read_of_reader (Meaning.reader_of_atom (by decide) (by simp [Token.sign?]) hcall
      (Phrase.clear_nil _))
  have hlimited := hx.on_value fun v => (.ok (f v) : Except EvalError Float)
  rw [← hvalue] at hlimited
  refine hlimited.congr ?_
  omega

theorem evaluate_bracketed_error (he : evaluate source separator functions = .error e)
    (hcause : e.cause.liesInside = true) (rest : String) :
    Curtails (evaluate ("(" ++ source ++ ")" ++ rest) separator functions)
      (.error ⟨e.position + 1, e.cause⟩) := by
  -- What stands behind an expression is blamed for other causes.
  have hinside : functions.meaning.reader (Input.ofSource separator.char source).ending
      nestingLimit .expression (Input.ofSource separator.char source).tokens = .error e := by
    rcases bind_eq_error.mp he with hread | ⟨⟨v, behind⟩, -, hend⟩
    · exact hread
    · rcases bind_eq_error.mp hend with hend | ⟨-, -, hv⟩
      · cases behind with
        | nil => cases hend
        | cons t behind =>
          rw [Meaning.expectEnd] at hend
          split at hend <;> cases hend <;> cases hcause
      · cases hv
  have hunfinished : e.cause ≠ .endOfExpression := by
    intro hend
    rw [hend] at hcause
    cases hcause
  have hsource : ("(" ++ source ++ ")" ++ rest).toList =
      '(' :: (source.toList ++ ')' :: rest.toList) := by
    simp
  obtain ⟨behind, htokens, hends⟩ := Input.endsWith_bracket (· + (0 + 1))
    (r := ⟨.symbol .rparen, 0 + 1 + byteLength source.toList⟩) rfl (byteLength source.toList)
    (byteLength ("(" ++ source ++ ")" ++ rest).toList)
    ((lexemes separator.char source).map Lexeme.item)
    ((lexemesFrom separator.char (0 + 1 + byteLength source.toList + 1) rest.toList).map
      Lexeme.item)
  rw [evaluate, Input.ofSource, lexemes, hsource, items_bracketed, Input.ofItems, ← hsource,
    htokens]
  exact functions.read_bracketed_error (· + (0 + 1)) rfl hends hinside hunfinished

end Sources

/-- Sources with values, in brackets, come to what the operator between them or the function in
front of them makes of the values, exactly if the levels that their trees open leave room for one
more, and the right operand of a power and an argument for two. An error that lies inside a source
stays the same in brackets, one byte on, whatever follows, unless the levels run out before. -/
theorem evaluate_compose (separator : Separator) (functions : FunctionTable) :
    (∀ (s t : String) (v w : Float) (symbol : Symbol) (op : Operator),
      evaluate s separator functions = .ok v → evaluate t separator functions = .ok w →
      Operator.ofToken? (.symbol symbol) = some op →
      ∃ left right, Expr.parse s separator functions = .ok left ∧
        Expr.parse t separator functions = .ok right ∧
        Limited (left.levels < nestingLimit ∧ right.levels + op.opens < nestingLimit)
          (op.apply (byteLength s.toList + 2) v w)
          (evaluate ("(" ++ s ++ ")" ++ String.singleton symbol.char ++ "(" ++ t ++ ")") separator
            functions)) ∧
    (∀ (s name : String) (v : Float) (f : Float → Float),
      evaluate s separator functions = .ok v → functions.get? name = some f → name ≠ "" →
      (∀ c ∈ name.toList, c.isAlpha = true) →
      ∃ tree, Expr.parse s separator functions = .ok tree ∧
        Limited (tree.levels + 1 < nestingLimit) (.ok (f v))
          (evaluate (name ++ "(" ++ s ++ ")") separator functions)) ∧
    (∀ (s : String) (e : EvalError),
      evaluate s separator functions = .error e → e.cause.liesInside = true →
      ∀ rest : String, Curtails (evaluate ("(" ++ s ++ ")" ++ rest) separator functions)
        (.error ⟨e.position + 1, e.cause⟩)) :=
  ⟨fun _ _ _ _ _ _ hv hw hop => evaluate_binary hv hw hop,
    fun _ _ _ _ hv hf hne hletters => evaluate_call hv hf hne hletters,
    fun _ _ he hcause rest => evaluate_bracketed_error he hcause rest⟩

end Reckoner

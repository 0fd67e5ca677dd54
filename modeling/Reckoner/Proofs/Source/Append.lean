import Reckoner.Proofs.Source.Joints

/-!
# Text behind blanks

A blank ends every lexeme. So the lexemes of a source stay what they are when blanks and any text
follow, and its tokens stay the first ones; behind a fault nothing is added to the input at all.
-/
namespace Reckoner

section Blanks

variable (separator : Separator) {blanks : List Char} (hne : blanks ≠ [])
  (hblanks : ∀ c ∈ blanks, isBlank c = true)
include hne hblanks

theorem lexemesFrom_append (start : Nat) (text behind : List Char) :
    lexemesFrom separator.char start (text ++ (blanks ++ behind)) =
      lexemesFrom separator.char start text ++
        lexemesFrom separator.char (start + byteLength text + byteLength blanks) behind := by
  obtain ⟨d, more, rfl⟩ := List.exists_cons_of_ne_nil hne
  have hhead : ∀ c ∈ (d :: more ++ behind).head?, ∀ kind : LexemeKind,
      kind.continuesWith separator.char c = false := by
    intro c hc kind
    obtain rfl : d = c := by simpa using hc
    exact kind.continuesWith_of_isBlank separator (hblanks d List.mem_cons_self)
  rw [lexemesFrom_append_of_head hhead, lexemesFrom_blanks _ hblanks]

end Blanks

namespace Input

theorem ofItems_append_of_fault {position : Nat} (other : Nat)
    {items : List (Except EvalError Located)} {e : EvalError}
    (h : (ofItems position items).ending = .fault e) (more : List (Except EvalError Located)) :
    ofItems other (items ++ more) = ofItems position items := by
  induction items with
  | nil => cases h
  | cons item items ih =>
    cases item with
    | error d => rfl
    | ok t => rw [List.cons_append, ofItems, ih h]; rfl

theorem ofItems_append_of_tokens (position : Nat) (tokens : List Located)
    (more : List (Except EvalError Located)) :
    ofItems position (tokens.map .ok ++ more) =
      ⟨tokens ++ (ofItems position more).tokens, (ofItems position more).ending⟩ := by
  induction tokens with
  | nil => rfl
  | cons t tokens ih => rw [List.map_cons, List.cons_append, ofItems, ih, List.cons_append]

variable (separator : Separator) {blanks : String} (hne : blanks ≠ "")
  (hblanks : ∀ c ∈ blanks.toList, isBlank c = true)
include hne hblanks

/-- With blanks and more text behind it, a source of tokens has more of them, and a source with a
fault is the same input as before. -/
theorem ofSource_append (source text : String) :
    (∃ e, (ofSource separator.char source).ending = .fault e) ∧
        ofSource separator.char (source ++ blanks ++ text) = ofSource separator.char source ∨
      (lexemes separator.char source).map Lexeme.item =
          (ofSource separator.char source).tokens.map .ok ∧
        ∃ more ending, ofSource separator.char (source ++ blanks ++ text) =
          ⟨(ofSource separator.char source).tokens ++ more, ending⟩ := by
  obtain ⟨back, hlexemes⟩ : ∃ back, lexemes separator.char (source ++ blanks ++ text) =
      lexemes separator.char source ++ back := by
    rw [lexemes, String.toList_append, String.toList_append, List.append_assoc]
    exact ⟨_, lexemesFrom_append separator (by simpa using hne) hblanks 0 _ text.toList⟩
  rcases ofSource_items separator.char source with ⟨-, hitems⟩ | ⟨e, -, hfault, -⟩
  · have hinput : ofSource separator.char (source ++ blanks ++ text) =
        ofItems (byteLength (source ++ blanks ++ text).toList)
          ((ofSource separator.char source).tokens.map .ok ++ back.map Lexeme.item) := by
      rw [ofSource, hlexemes, List.map_append, hitems]
    exact .inr ⟨hitems, _, _, hinput.trans (ofItems_append_of_tokens _ _ _)⟩
  · refine .inl ⟨⟨e, hfault⟩, ?_⟩
    rw [ofSource, hlexemes, List.map_append]
    exact ofItems_append_of_fault _ hfault _

end Input

end Reckoner

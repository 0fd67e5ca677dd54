import Reckoner.Input

/-!
# Positions in a source

Lexemes stand one behind the other inside the source, whatever the separator. So the tokens of an
input stand in ascending order in front of its ending.
-/
namespace Reckoner

theorem byteLength_append (left right : List Char) :
    byteLength (left ++ right) = byteLength left + byteLength right := by
  induction left with
  | nil => simp [byteLength]
  | cons c left ih => rw [List.cons_append, byteLength_cons, byteLength_cons, ih, Nat.add_assoc]

theorem byteLength_scan (separator c : Char) (cs : List Char) :
    byteLength (scan separator c cs).1.slice + byteLength (scan separator c cs).1.remainder =
      byteLength (c :: cs) := by
  obtain ⟨more, hslice, hmore⟩ := scan_slice separator c cs
  rw [← byteLength_append, hslice, List.cons_append, hmore]

section Spans

variable {separator : Char}

/-- A lexeme is what is taken at some place of the text that is no blank. -/
theorem exists_scan_of_mem {start : Nat} {text : List Char} {l : Lexeme}
    (h : l ∈ lexemesFrom separator start text) :
    ∃ front c cs, text = front ++ c :: cs ∧ isBlank c = false ∧
      l = ⟨start + byteLength front, (scan separator c cs).1.slice, (scan separator c cs).2⟩ := by
  fun_induction lexemesFrom separator start text with
  | case1 start => cases h
  | case2 start c cs hblank ih =>
    obtain ⟨front, d, ds, rfl, hd, rfl⟩ := ih h
    exact ⟨c :: front, d, ds, rfl, hd, by rw [byteLength_cons, Nat.add_assoc]⟩
  | case3 start c cs hblank taken ih =>
    rcases List.mem_cons.mp h with rfl | h
    · exact ⟨[], c, cs, rfl, Bool.eq_false_iff.mpr hblank, rfl⟩
    · obtain ⟨front, d, ds, hremainder, hd, rfl⟩ := ih h
      obtain ⟨more, hslice, hmore⟩ := scan_slice separator c cs
      refine ⟨taken.1.slice ++ front, d, ds, ?_, hd, by rw [byteLength_append, Nat.add_assoc]⟩
      rw [List.append_assoc, ← hremainder, hslice, List.cons_append, hmore]

theorem text_ne_nil_of_mem {start : Nat} {text : List Char} {l : Lexeme}
    (h : l ∈ lexemesFrom separator start text) : l.text ≠ [] := by
  obtain ⟨front, c, cs, -, -, rfl⟩ := exists_scan_of_mem h
  obtain ⟨more, hslice, -⟩ := scan_slice separator c cs
  exact List.ne_nil_of_mem (hslice ▸ List.mem_cons_self)

theorem Lexeme.start_lt_stop {l : Lexeme} (h : l.text ≠ []) : l.start < l.stop := by
  obtain ⟨c, cs, htext⟩ := List.exists_cons_of_ne_nil h
  have := c.utf8Size_pos
  rw [Lexeme.stop, htext, byteLength_cons]
  omega

theorem span_within {start : Nat} {text : List Char} {l : Lexeme}
    (h : l ∈ lexemesFrom separator start text) :
    start ≤ l.start ∧ l.stop ≤ start + byteLength text := by
  obtain ⟨front, c, cs, rfl, -, rfl⟩ := exists_scan_of_mem h
  have hlength := byteLength_scan separator c cs
  simp only [Lexeme.stop, byteLength_append]
  omega

theorem spans_pairwise (separator : Char) (start : Nat) (text : List Char) :
    (lexemesFrom separator start text).Pairwise (·.stop ≤ ·.start) := by
  fun_induction lexemesFrom separator start text with
  | case1 start => exact .nil
  | case2 start c cs hblank ih => exact ih
  | case3 start c cs hblank taken ih => exact .cons (fun l hl => (span_within hl).1) ih

theorem starts_ascend (separator : Char) (source : String) :
    ((lexemes separator source).map Lexeme.start ++ [byteLength source.toList]).Pairwise
      (· < ·) := by
  have hstop {l : Lexeme} (hl : l ∈ lexemes separator source) : l.start < l.stop :=
    Lexeme.start_lt_stop (text_ne_nil_of_mem hl)
  refine List.pairwise_append.mpr ⟨?_, List.pairwise_singleton _ _, ?_⟩
  · rw [List.pairwise_map]
    refine (spans_pairwise separator 0 source.toList).imp_of_mem fun ha _ hab => ?_
    exact Nat.lt_of_lt_of_le (hstop ha) hab
  · intro a ha b hb
    obtain ⟨l, hl, rfl⟩ := List.mem_map.mp ha
    obtain rfl := List.mem_singleton.mp hb
    have := (span_within hl).2
    rw [Nat.zero_add] at this
    exact Nat.lt_of_lt_of_le (hstop hl) this

theorem index_of_start {source : String} {k j : Nat} {l other : Lexeme}
    (hl : (lexemes separator source)[k]? = some l)
    (hother : (lexemes separator source)[j]? = some other) (hstart : l.start = other.start) :
    k = j := by
  have hascend := (List.pairwise_append.mp (starts_ascend separator source)).1
  have hnodup : ((lexemes separator source).map Lexeme.start).Nodup :=
    hascend.imp fun h => Nat.ne_of_lt h
  have hk : k < ((lexemes separator source).map Lexeme.start).length := by
    rw [List.length_map]
    exact (List.getElem?_eq_some_iff.mp hl).1
  refine (List.getElem?_inj hk hnodup).mp ?_
  rw [List.getElem?_map, List.getElem?_map, hl, hother, Option.map_some, Option.map_some, hstart]

end Spans

def itemPosition : Except EvalError Located → Nat
  | .ok t => t.position
  | .error e => e.position

theorem Lexeme.itemPosition_item (l : Lexeme) : itemPosition l.item = l.start := by
  rw [Lexeme.item]
  split <;> rfl

theorem Lexeme.content_of_item {l : Lexeme} {t : Located} (h : l.item = .ok t) :
    l.content = .ok t.token ∧ l.start = t.position := by
  rw [Lexeme.item] at h
  split at h <;> cases h
  exact ⟨‹_›, rfl⟩

theorem Lexeme.contents_of_items {ls : List Lexeme} {tokens : List Located}
    (h : ls.map Lexeme.item = tokens.map .ok) :
    ls.map Lexeme.content = (tokens.map Located.token).map .ok := by
  induction ls generalizing tokens with
  | nil =>
    obtain rfl := List.map_eq_nil_iff.mp h.symm
    rfl
  | cons l ls ih =>
    obtain ⟨t, tokens, rfl, ht, htokens⟩ := List.map_eq_cons_iff.mp h.symm
    rw [List.map_cons, (Lexeme.content_of_item ht.symm).1, ih htokens.symm]
    rfl

theorem Lexeme.items_of_contents {ls : List Lexeme} {tokens : List Token}
    (h : ls.map Lexeme.content = tokens.map .ok) :
    ∃ located : List Located, located.map Located.token = tokens ∧
      ls.map Lexeme.item = located.map .ok := by
  induction ls generalizing tokens with
  | nil => exact ⟨[], (List.map_eq_nil_iff.mp h.symm).symm, rfl⟩
  | cons l ls ih =>
    obtain ⟨token, tokens, rfl, htoken, htokens⟩ := List.map_eq_cons_iff.mp h.symm
    obtain ⟨located, rfl, hitems⟩ := ih htokens.symm
    refine ⟨⟨token, l.start⟩ :: located, rfl, ?_⟩
    rw [List.map_cons, List.map_cons, hitems, Lexeme.item, ← htoken]

/-- The byte offset at which the remaining tokens start. -/
def Ending.place (ending : Ending) : List Located → Nat
  | [] => ending.error.position
  | t :: _ => t.position

namespace Input

/-- The tokens stand in ascending order in front of the ending. -/
def Ordered (input : Input) : Prop :=
  (input.tokens.map Located.position ++ [input.ending.error.position]).Pairwise (· < ·)

theorem ofItems_positions_prefix (position : Nat) (items : List (Except EvalError Located)) :
    (ofItems position items).tokens.map Located.position ++
        [(ofItems position items).ending.error.position] <+:
      items.map itemPosition ++ [position] := by
  induction items with
  | nil => exact List.prefix_rfl
  | cons item items ih =>
    cases item with
    | error e => exact ⟨items.map itemPosition ++ [position], rfl⟩
    | ok t => exact (List.prefix_cons_inj t.position).mpr ih

theorem ofItems_map_ok (position : Nat) (tokens : List Located) :
    ofItems position (tokens.map .ok) = ⟨tokens, .finish position⟩ := by
  induction tokens with
  | nil => rfl
  | cons t tokens ih => rw [List.map_cons, ofItems, ih]

/-- Behind the tokens of an input stands the end of the items or the fault. -/
theorem ofItems_items (position : Nat) (items : List (Except EvalError Located)) :
    ((ofItems position items).ending = .finish position ∧
        items = (ofItems position items).tokens.map .ok) ∨
      ∃ e behind, (ofItems position items).ending = .fault e ∧
        items = (ofItems position items).tokens.map .ok ++ .error e :: behind := by
  induction items with
  | nil => exact .inl ⟨rfl, rfl⟩
  | cons item items ih =>
    cases item with
    | error e => exact .inr ⟨e, items, rfl, rfl⟩
    | ok t =>
      rcases ih with ⟨hending, htokens⟩ | ⟨e, behind, hending, htokens⟩
      · exact .inl ⟨hending, congrArg (Except.ok t :: ·) htokens⟩
      · exact .inr ⟨e, behind, hending, congrArg (Except.ok t :: ·) htokens⟩

section Parts

variable {position : Nat} {items : List (Except EvalError Located)} {ls : List Lexeme}
  {pre rest : List Located} {ending : Ending}

/-- Behind some of the tokens of an input, the items are an input with the tokens that remain. -/
theorem ofItems_eq_append (h : ofItems position items = ⟨pre ++ rest, ending⟩) :
    ∃ behind, items = pre.map .ok ++ behind ∧ ofItems position behind = ⟨rest, ending⟩ := by
  induction pre generalizing items with
  | nil => exact ⟨items, rfl, h⟩
  | cons t pre ih =>
    cases items with
    | nil => cases h
    | cons item items =>
      cases item with
      | error e => cases h
      | ok t' =>
        rw [ofItems, List.cons_append, Input.mk.injEq, List.cons.injEq] at h
        obtain ⟨⟨rfl, htokens⟩, hending⟩ := h
        have hitems : ofItems position items = ⟨pre ++ rest, ending⟩ := by rw [← htokens, ← hending]
        obtain ⟨behind, rfl, hbehind⟩ := ih hitems
        exact ⟨behind, rfl, hbehind⟩

theorem lexemes_eq_append (h : ofItems position (ls.map Lexeme.item) = ⟨pre ++ rest, ending⟩) :
    ∃ front back, ls = front ++ back ∧ front.map Lexeme.item = pre.map .ok ∧
      ofItems position (back.map Lexeme.item) = ⟨rest, ending⟩ := by
  obtain ⟨behind, hitems, hbehind⟩ := ofItems_eq_append h
  obtain ⟨front, back, rfl, hfront, rfl⟩ := List.map_eq_append_iff.mp hitems
  exact ⟨front, back, rfl, hfront, hbehind⟩

theorem lexemes_eq_cons {t : Located}
    (h : ofItems position (ls.map Lexeme.item) = ⟨t :: rest, ending⟩) :
    ∃ l back, ls = l :: back ∧ l.item = .ok t ∧
      ofItems position (back.map Lexeme.item) = ⟨rest, ending⟩ := by
  rw [← List.singleton_append] at h
  obtain ⟨front, back, rfl, hfront, hback⟩ := lexemes_eq_append h
  obtain ⟨l, more, rfl, hl, hmore⟩ := List.map_eq_cons_iff.mp hfront
  obtain rfl := List.map_eq_nil_iff.mp hmore
  exact ⟨l, back, rfl, hl, hback⟩

theorem lexemes_eq_fault {e : EvalError}
    (h : ofItems position (ls.map Lexeme.item) = ⟨[], .fault e⟩) :
    ∃ l back, ls = l :: back ∧ l.item = .error e := by
  cases ls with
  | nil => cases h
  | cons l back =>
    refine ⟨l, back, rfl, ?_⟩
    rw [List.map_cons] at h
    cases hl : l.item with
    | ok t =>
      rw [hl] at h
      cases h
    | error d =>
      rw [hl] at h
      cases h
      rfl

end Parts

theorem Ordered.lt_place {input : Input} {pre rest : List Located} {t : Located}
    (h : input.Ordered) (htokens : pre ++ rest = input.tokens) (ht : t ∈ pre) :
    t.position < input.ending.place rest := by
  rw [Ordered, ← htokens, List.map_append, List.append_assoc, List.pairwise_append] at h
  refine h.2.2 _ (List.mem_map_of_mem ht) _ ?_
  cases rest <;> simp [Ending.place]

section OfSource

variable (separator : Char) (source : String)

theorem ofSource_ordered : (ofSource separator source).Ordered := by
  have hprefix := ofItems_positions_prefix (byteLength source.toList)
    ((lexemes separator source).map Lexeme.item)
  have hstarts : ((lexemes separator source).map Lexeme.item).map itemPosition =
      (lexemes separator source).map Lexeme.start := by
    simp [Lexeme.itemPosition_item]
  rw [hstarts] at hprefix
  exact (starts_ascend separator source).sublist hprefix.sublist

/-- The tokens of a source are its lexemes up to the first that is none. -/
theorem ofSource_items :
    ((ofSource separator source).ending = .finish (byteLength source.toList) ∧
        (lexemes separator source).map Lexeme.item =
          (ofSource separator source).tokens.map .ok) ∨
      ∃ e behind, (ofSource separator source).ending = .fault e ∧
        (lexemes separator source).map Lexeme.item =
          (ofSource separator source).tokens.map .ok ++ .error e :: behind :=
  ofItems_items _ _

variable {separator source}

theorem ofSource_of_items {tokens : List Located}
    (h : (lexemes separator source).map Lexeme.item = tokens.map .ok) :
    ofSource separator source = ⟨tokens, .finish (byteLength source.toList)⟩ := by
  rw [ofSource, h, ofItems_map_ok]

/-- In front of a token stand the lexemes of the tokens in front of it. -/
theorem lexemes_of_tokens {pre rest : List Located} {t : Located}
    (h : pre ++ t :: rest = (ofSource separator source).tokens) :
    ∃ front l back, lexemes separator source = front ++ l :: back ∧
      front.map Lexeme.content = (pre.map Located.token).map .ok ∧
      l.content = .ok t.token ∧ l.start = t.position := by
  have hinput : ofSource separator source =
      ⟨pre ++ t :: rest, (ofSource separator source).ending⟩ := by rw [h]
  obtain ⟨front, tail, hlexemes, hfront, htail⟩ := lexemes_eq_append hinput
  obtain ⟨l, back, rfl, hl, -⟩ := lexemes_eq_cons htail
  exact ⟨front, l, back, hlexemes, Lexeme.contents_of_items hfront, Lexeme.content_of_item hl⟩

theorem mem_lexemes_of_mem_tokens {t : Located} (h : t ∈ (ofSource separator source).tokens) :
    ∃ l ∈ lexemes separator source, l.content = .ok t.token ∧ l.start = t.position := by
  obtain ⟨pre, rest, htokens⟩ := List.append_of_mem h
  obtain ⟨front, l, back, hlexemes, -, hl⟩ := lexemes_of_tokens htokens.symm
  exact ⟨l, by simp [hlexemes], hl⟩

theorem cause_of_fault {e : EvalError} (h : (ofSource separator source).ending = .fault e) :
    (∃ c, e.cause = .unknownCharacter c) ∨ ∃ text, e.cause = .malformedNumber text := by
  rcases ofSource_items separator source with ⟨hfinish, -⟩ | ⟨d, behind, hfault, hitems⟩
  · rw [h] at hfinish
    cases hfinish
  · obtain rfl : e = d := by simpa [h] using hfault
    have hmem : Except.error e ∈ (lexemes separator source).map Lexeme.item := by
      simp [hitems]
    obtain ⟨l, -, hl⟩ := List.mem_map.mp hmem
    rw [Lexeme.item] at hl
    split at hl
    · cases hl
    · cases hl
      exact .inl ⟨_, rfl⟩
    · cases hl
      exact .inr ⟨_, rfl⟩

/-- The ending of a source is its end or a fault, and speaks of nothing else. -/
theorem cause_of_ending (separator : Char) (source : String) :
    (ofSource separator source).ending.error.cause = .endOfExpression ∨
      (∃ c, (ofSource separator source).ending.error.cause = .unknownCharacter c) ∨
        ∃ text, (ofSource separator source).ending.error.cause = .malformedNumber text := by
  cases hending : (ofSource separator source).ending with
  | finish position => exact .inl rfl
  | fault e => exact .inr (cause_of_fault hending)

end OfSource

end Input

end Reckoner

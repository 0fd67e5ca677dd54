import Mathlib.Data.List.Forall2
import Reckoner.Proofs.LexicalGrammar

/-!
# Exchanging the separator

Characters without a meaning of their own may be changed into one another, as long as the separator
and only the separator becomes the new one. Then the text is cut in the same way: the tokens stay,
the faults carry the changed characters, and every piece starts in front of the same character.
-/
namespace Reckoner

/-- The cause with the characters of a lexeme changed. Names and limits stay. -/
def Cause.change (change : Char → Char) : Cause → Cause
  | .malformedNumber lexeme => .malformedNumber (String.ofList (lexeme.toList.map change))
  | .unknownCharacter c => .unknownCharacter (change c)
  | cause => cause

/-- Two byte offsets, one in a text and one in the changed text, are in front of the same character
or both at the end. -/
def SamePlace (change : Char → Char) (text : List Char) (p q : Nat) : Prop :=
  ∃ front back, text = front ++ back ∧ p = byteLength front ∧ q = byteLength (front.map change)

structure SameError (change : Char → Char) (text : List Char) (e f : EvalError) : Prop where
  cause : f.cause = e.cause.change change
  place : SamePlace change text e.position f.position

structure SameToken (change : Char → Char) (text : List Char) (t t' : Located) : Prop where
  token : t'.token = t.token
  place : SamePlace change text t.position t'.position

inductive SameItem (change : Char → Char) (text : List Char) :
    Except EvalError Located → Except EvalError Located → Prop where
  | token {t t' : Located} (h : SameToken change text t t') :
      SameItem change text (.ok t) (.ok t')
  | error {e f : EvalError} (h : SameError change text e f) :
      SameItem change text (.error e) (.error f)

namespace SameItem

variable {change : Char → Char} (front rest : List Char)

theorem token_at (token : Token) :
    SameItem change (front ++ rest) (.ok ⟨token, byteLength front⟩)
      (.ok ⟨token, byteLength (front.map change)⟩) :=
  .token ⟨rfl, front, rest, rfl, rfl, rfl⟩

theorem error_at (cause : Cause) :
    SameItem change (front ++ rest) (.error ⟨byteLength front, cause⟩)
      (.error ⟨byteLength (front.map change), cause.change change⟩) :=
  .error ⟨rfl, front, rest, rfl, rfl, rfl⟩

end SameItem

/-- A change of characters that have no meaning of their own, which turns the separator `a` of a
text, and nothing else in it, into `b`. -/
structure Exchanges (change : Char → Char) (a b : Separator) (text : List Char) : Prop where
  reserved : ∀ c, isReserved c = true → change c = c
  free : ∀ c, isReserved c = false → isReserved (change c) = false
  separator : ∀ c ∈ text, change c = b.char ↔ c = a.char

namespace Exchanges

variable {change : Char → Char} {a b : Separator} {text run rest : List Char}

theorem append_left (h : Exchanges change a b (run ++ rest)) : Exchanges change a b run :=
  ⟨h.reserved, h.free, fun c hc => h.separator c (List.mem_append_left _ hc)⟩

theorem append_right (h : Exchanges change a b (run ++ rest)) : Exchanges change a b rest :=
  ⟨h.reserved, h.free, fun c hc => h.separator c (List.mem_append_right _ hc)⟩

theorem class_eq (h : Exchanges change a b text) {p : Char → Bool}
    (hp : ∀ c, p c = true → isReserved c = true) (c : Char) : p (change c) = p c := by
  cases hc : isReserved c with
  | true => rw [h.reserved c hc]
  | false =>
    have hnot (d : Char) (hd : isReserved d = false) : p d = false :=
      Bool.eq_false_iff.mpr fun hpd => by simp [hp d hpd] at hd
    rw [hnot c hc, hnot _ (h.free c hc)]

theorem isBlank_eq (h : Exchanges change a b text) (c : Char) :
    isBlank (change c) = isBlank c :=
  h.class_eq (fun _ => isReserved_of_isBlank) c

theorem isAlpha_eq (h : Exchanges change a b text) (c : Char) :
    (change c).isAlpha = c.isAlpha :=
  h.class_eq (fun _ => isReserved_of_isAlpha) c

theorem isDigit_eq (h : Exchanges change a b text) (c : Char) :
    (change c).isDigit = c.isDigit :=
  h.class_eq (fun _ => isReserved_of_isDigit) c

theorem isNumeric_eq (h : Exchanges change a b text) :
    ∀ c ∈ text, isNumeric b.char (change c) = isNumeric a.char c := by
  intro c hc
  rw [isNumeric, isNumeric, h.isDigit_eq, decide_eq_decide.mpr (h.separator c hc)]

theorem map_eq_of_letters (h : Exchanges change a b text)
    (hrun : ∀ c ∈ run, c.isAlpha = true) : run.map change = run :=
  (List.map_congr_left fun c hc => h.reserved c (isReserved_of_isAlpha (hrun c hc))).trans
    (List.map_id run)

/-- A number reads the same with either separator. -/
theorem pointed_eq (h : Exchanges change a b run)
    (hrun : ∀ c ∈ run, isNumeric a.char c = true) :
    (run.map change).map (pointed b.char) = run.map (pointed a.char) := by
  rw [List.map_map]
  refine List.map_congr_left fun c hc => ?_
  have hnumeric := hrun c hc
  rw [isNumeric, Bool.or_eq_true, decide_eq_true_eq] at hnumeric
  by_cases hseparator : c = a.char
  · simp only [Function.comp_apply, pointed, if_pos hseparator,
      if_pos ((h.separator c hc).mpr hseparator)]
  · have hsame := h.reserved c (isReserved_of_isDigit (hnumeric.resolve_right hseparator))
    have hother := mt (h.separator c hc).mp hseparator
    rw [Function.comp_apply, pointed, pointed, if_neg hother, if_neg hseparator, hsame]

theorem isNumeric_map (h : Exchanges change a b run)
    (hrun : ∀ c ∈ run, isNumeric a.char c = true) :
    ∀ d ∈ run.map change, isNumeric b.char d = true := by
  intro d hd
  obtain ⟨c, hc, rfl⟩ := List.mem_map.mp hd
  exact (h.isNumeric_eq c hc).trans (hrun c hc)

theorem ofNumeral_eq (h : Exchanges change a b run)
    (hrun : ∀ c ∈ run, isNumeric a.char c = true) :
    Decimal.ofNumeral b.char (run.map change) = Decimal.ofNumeral a.char run := by
  rw [← ofNumeral_pointed a hrun, ← ofNumeral_pointed b (h.isNumeric_map hrun), h.pointed_eq hrun]

theorem count_eq (h : Exchanges change a b run) :
    (run.map change).count b.char = run.count a.char := by
  rw [List.count_eq_countP, List.count_eq_countP, List.countP_map]
  refine List.countP_congr fun c hc => ?_
  simp only [Function.comp_apply, beq_iff_eq]
  exact h.separator c hc

theorem isStray {c : Char} (h : Exchanges change a b (c :: rest)) (hc : IsStray a.char c) :
    IsStray b.char (change c) where
  blank := (h.isBlank_eq c).trans hc.blank
  letter := (h.isAlpha_eq c).trans hc.letter
  numeric := (h.isNumeric_eq c List.mem_cons_self).trans hc.numeric
  symbol s hs := by
    cases hreserved : isReserved c with
    | true => exact hc.symbol s ((h.reserved c hreserved).symm.trans hs)
    | false =>
      have := h.free c hreserved
      rw [hs, s.isReserved_char] at this
      cases this

/-- Behind `front`, the changed text spells the same items at the same places. -/
def Alike (change : Char → Char) (b : Separator) (front text : List Char)
    (items : List (Except EvalError Located)) : Prop :=
  ∃ items', Spells b.char (byteLength (front.map change)) (text.map change) items' ∧
    List.Forall₂ (SameItem change (front ++ text)) items items'

theorem Alike.behind {front : List Char} {items : List (Except EvalError Located)}
    (h : Alike change b (front ++ run) rest items) :
    ∃ items', Spells b.char (byteLength (front.map change) + byteLength (run.map change))
        (rest.map change) items' ∧
      List.Forall₂ (SameItem change (front ++ (run ++ rest))) items items' := by
  obtain ⟨items', hitems, hsame⟩ := h
  rw [List.map_append, byteLength_append] at hitems
  rw [List.append_assoc] at hsame
  exact ⟨items', hitems, hsame⟩

/-- The changed text spells the same items at the same places. -/
theorem alike {start : Nat} {items : List (Except EvalError Located)}
    (hspells : Spells a.char start text items) :
    ∀ front, start = byteLength front → Exchanges change a b (front ++ text) →
      Alike change b front text items := by
  induction hspells with
  | nil => exact fun front _ _ => ⟨[], .nil, .nil⟩
  | @blanks start run rest items hrun _ ih =>
    rintro front rfl h
    obtain ⟨items', hitems, hsame⟩ :=
      (ih (front ++ run) (byteLength_append front run).symm (by rwa [List.append_assoc])).behind
    refine ⟨items', ?_, hsame⟩
    rw [List.map_append]
    exact .blanks (hrun.map fun c _ => h.isBlank_eq c) hitems
  | @identifier start run rest items hrun _ ih =>
    rintro front rfl h
    obtain ⟨items', hitems, hsame⟩ :=
      (ih (front ++ run) (byteLength_append front run).symm (by rwa [List.append_assoc])).behind
    refine ⟨_, ?_, .cons (.token_at front (run ++ rest) _) hsame⟩
    have hname := h.map_eq_of_letters hrun.inside
    have hletters := hrun.map fun c _ => h.isAlpha_eq c
    rw [hname] at hletters hitems
    rw [List.map_append, hname]
    exact .identifier hletters hitems
  | @number start run rest items hrun hdigit hsingle _ ih =>
    rintro front rfl h
    obtain ⟨items', hitems, hsame⟩ :=
      (ih (front ++ run) (byteLength_append front run).symm (by rwa [List.append_assoc])).behind
    refine ⟨_, ?_, .cons (.token_at front (run ++ rest) _) hsame⟩
    have hnumber := h.append_right.append_left
    rw [List.map_append, ← hnumber.ofNumeral_eq hrun.inside]
    refine .number (hrun.map h.append_right.isNumeric_eq) ?_ (hnumber.count_eq ▸ hsingle) hitems
    obtain ⟨c, hc, hdigit⟩ := hdigit
    exact ⟨_, List.mem_map_of_mem hc, (h.isDigit_eq c).trans hdigit⟩
  | @malformed start run rest items hrun hnot _ ih =>
    rintro front rfl h
    obtain ⟨items', hitems, hsame⟩ :=
      (ih (front ++ run) (byteLength_append front run).symm (by rwa [List.append_assoc])).behind
    refine ⟨_, ?_, .cons (.error_at front (run ++ rest) _) hsame⟩
    rw [List.map_append]
    simp only [Cause.change, String.toList_ofList]
    refine .malformed (hrun.map h.append_right.isNumeric_eq) ?_ hitems
    rw [h.append_right.append_left.count_eq]
    refine hnot.imp_left fun hnone d hd => ?_
    obtain ⟨c, hc, rfl⟩ := List.mem_map.mp hd
    exact (h.isDigit_eq c).trans (hnone c hc)
  | @symbol start s rest items _ ih =>
    rintro front rfl h
    obtain ⟨items', hitems, hsame⟩ :=
      (ih (front ++ [s.char]) (byteLength_append front [s.char]).symm
        (by rwa [List.append_assoc])).behind
    refine ⟨_, ?_, .cons (.token_at front (s.char :: rest) _) hsame⟩
    rw [List.map_singleton, h.reserved _ s.isReserved_char] at hitems
    rw [List.map_cons, h.reserved _ s.isReserved_char]
    exact .symbol hitems
  | @stray start c rest items hc _ ih =>
    rintro front rfl h
    obtain ⟨items', hitems, hsame⟩ :=
      (ih (front ++ [c]) (byteLength_append front [c]).symm (by rwa [List.append_assoc])).behind
    refine ⟨_, ?_, .cons (.error_at front (c :: rest) _) hsame⟩
    rw [List.map_cons]
    exact .stray (h.append_right.isStray hc) hitems

theorem sameItems {source : String} (h : Exchanges change a b source.toList) :
    List.Forall₂ (SameItem change source.toList) ((lexemes a.char source).map Lexeme.item)
      ((lexemes b.char (String.ofList (source.toList.map change))).map Lexeme.item) := by
  obtain ⟨items, hspells⟩ := exists_spells a.char source.toList 0
  obtain ⟨items', hspells', hsame⟩ := alike hspells [] rfl h
  have hitems := items_of_spells hspells
  have hitems' := items_of_spells hspells'
  rw [lexemes, lexemes, String.toList_ofList, hitems]
  exact hitems' ▸ hsame

end Exchanges

end Reckoner

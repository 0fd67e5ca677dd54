import Reckoner.Proofs.Calculator.View
import Reckoner.Session

/-!
# What a session answers

A step of a session can be said without tables: what its calculators amount to decides what they
answer and what they amount to next. Main statements: each step answers and changes as said, and
sessions whose calculators amount to the same are never told apart.
-/
namespace Reckoner

def Command.subjects : Command → List Nat
  | create _ => []
  | clone on | createLike on | evaluate on _ | setSeparator on _ | separator on | register on _ _
  | contains on _ | describe on => [on]
  | sameSeparator on other => [on, other]

/-- What the calculators of a session amount to after one more command. -/
def View.step (views : List View) : Command → List View
  | .create separator => views ++ [.ofSeparator separator]
  | .clone on => views ++ views[on]?.toList
  | .createLike on => views ++ (views[on]?.map fun v => View.ofSeparator v.separator).toList
  | .setSeparator on char => views.modify on (·.choose char)
  | .register on name f => views.modify on (·.register name f)
  | .evaluate _ _ | .separator _ | .contains _ _ | .sameSeparator _ _ | .describe _ => views

/-- `Answers views command reply`: this is what calculators that amount to this answer. -/
inductive Answers (views : List View) : Command → Reply → Prop where
  | create {separator : Separator} : Answers views (.create separator) (.made views.length)
  | clone {on : Nat} {v : View} (h : views[on]? = some v) :
      Answers views (.clone on) (.made views.length)
  | createLike {on : Nat} {v : View} (h : views[on]? = some v) :
      Answers views (.createLike on) (.made views.length)
  | evaluate {on : Nat} {source : String} {v : View} (h : views[on]? = some v) :
      Answers views (.evaluate on source) (.outcome (v.evaluate source) v.separator)
  | accepted {on : Nat} {char : Char} {separator : Separator} {v : View}
      (h : views[on]? = some v) (hchar : Separator.ofChar char = .ok separator) :
      Answers views (.setSeparator on char) (.chosen none separator)
  | refused {on : Nat} {char : Char} {e : SeparatorError} {v : View} (h : views[on]? = some v)
      (hchar : Separator.ofChar char = .error e) :
      Answers views (.setSeparator on char) (.chosen (some e) v.separator)
  | separator {on : Nat} {v : View} (h : views[on]? = some v) :
      Answers views (.separator on) (.separator v.separator)
  | register {on : Nat} {name : String} {f : Float → Float} {v : View}
      (h : views[on]? = some v) : Answers views (.register on name f) .registered
  | contains {on : Nat} {name : String} {v : View} (h : views[on]? = some v) :
      Answers views (.contains on name) (.answer (v.resolve name).isSome)
  | sameSeparator {on other : Nat} {v w : View} (h : views[on]? = some v)
      (hother : views[other]? = some w) :
      Answers views (.sameSeparator on other) (.answer (decide (v.separator = w.separator)))
  /-- The names that stand for functions, each once and in byte order. -/
  | describe {on : Nat} {v : View} {names : List String} (h : views[on]? = some v)
      (hascend : names.Pairwise fun a b => Text.byteOrder a b = .lt)
      (hmem : ∀ name, name ∈ names ↔ (v.resolve name).isSome = true) :
      Answers views (.describe on) (.text (v.text names))
  | missing {command : Command} {i : Nat} (hi : i ∈ command.subjects) (h : views[i]? = none) :
      Answers views command .noSuchCalculator

section Lists

variable {α β : Type} {view : α → β}

theorem map_modify {f : α → α} {g : β → β} (h : ∀ a, view (f a) = g (view a)) (l : List α)
    (on : Nat) : (l.modify on f).map view = (l.map view).modify on g := by
  refine List.ext_getElem? fun i => ?_
  rw [List.getElem?_map, List.getElem?_modify, List.getElem?_modify, List.getElem?_map]
  cases l[i]? with
  | none => rfl
  | some a => by_cases hi : on = i <;> simp [hi, h]

theorem set_eq_modify (g : β → β) {l : List β} {on : Nat} {b : β} (h : l[on]? = some b) :
    l.set on (g b) = l.modify on g := by
  refine List.ext_getElem? fun i => ?_
  rw [List.getElem?_modify, List.getElem?_set]
  by_cases hi : on = i
  · obtain ⟨hlt, rfl⟩ := List.getElem?_eq_some_iff.mp h
    subst hi
    simp [hlt]
  · simp [hi]

theorem modify_eq_self {g : β → β} {l : List β} {on : Nat} (h : ∀ b ∈ l[on]?, g b = b) :
    l.modify on g = l := by
  refine List.ext_getElem? fun i => ?_
  rw [List.getElem?_modify]
  by_cases hi : on = i
  · subst hi
    cases hb : l[on]? with
    | none => rfl
    | some b => simp [h b hb]
  · simp [hi]

end Lists

namespace Session

variable (s : Session)

theorem view_getElem? {s : Session} {on : Nat} {c : Calculator} (h : s[on]? = some c) :
    (s.map Calculator.view)[on]? = some c.view := by
  rw [List.getElem?_map, h, Option.map_some]

theorem view_getElem?_none {s : Session} {on : Nat} (h : s[on]? = none) :
    (s.map Calculator.view)[on]? = none := by
  rw [List.getElem?_map, h, Option.map_none]

/-- A step changes what the calculators amount to as the command says. -/
theorem view_step (command : Command) :
    (s.step command).1.map Calculator.view = View.step (s.map Calculator.view) command := by
  cases command with
  | create separator => simp [step, add, View.step, Calculator.view_ofSeparator]
  | clone on =>
    simp only [step, View.step, List.getElem?_map]
    cases s[on]? <;> simp [add]
  | createLike on =>
    simp only [step, View.step, List.getElem?_map]
    cases s[on]? with
    | none => simp
    | some c => simp [add, Calculator.view_ofSeparator, Calculator.separator_view]
  | setSeparator on char =>
    rw [step, View.step]
    cases hon : s[on]? with
    | none => exact (modify_eq_self (by simp [hon])).symm
    | some c =>
      rcases c.setSeparator_cases char with ⟨separator, -, hset, hview⟩ | ⟨e, -, hset, hview⟩
      · simp only [hset, List.map_set, ← hview]
        exact set_eq_modify _ (view_getElem? hon)
      · simp only [hset]
        refine (modify_eq_self fun v hv => ?_).symm
        rw [view_getElem? hon] at hv
        cases hv
        exact hview
  | register on name f =>
    rw [step, View.step]
    cases hon : s[on]? with
    | none => exact (modify_eq_self (by simp [hon])).symm
    | some c =>
      simp only [List.map_set, Calculator.view_register]
      exact set_eq_modify _ (view_getElem? hon)
  | evaluate | separator | contains | sameSeparator | describe => rfl

theorem ask_answers {on : Nat} {reply : Calculator → Reply} {command : Command}
    (hon : on ∈ command.subjects)
    (h : ∀ c, (s.map Calculator.view)[on]? = some c.view →
      Answers (s.map Calculator.view) command (reply c)) :
    Answers (s.map Calculator.view) command (s.ask on reply).2 := by
  rw [ask]
  cases hc : s[on]? with
  | none => exact .missing hon (view_getElem?_none hc)
  | some c => exact h c (view_getElem? hc)

/-- A step answers what its calculators answer. -/
theorem answers_step (command : Command) :
    Answers (s.map Calculator.view) command (s.step command).2 := by
  have hlength : s.length = (s.map Calculator.view).length := by simp
  cases command with
  | create separator =>
    rw [step, add, hlength]
    exact .create
  | clone on =>
    rw [step]
    cases hc : s[on]? with
    | none => exact .missing List.mem_cons_self (view_getElem?_none hc)
    | some c =>
      simp only [add, hlength]
      exact .clone (view_getElem? hc)
  | createLike on =>
    rw [step]
    cases hc : s[on]? with
    | none => exact .missing List.mem_cons_self (view_getElem?_none hc)
    | some c =>
      simp only [add, hlength]
      exact .createLike (view_getElem? hc)
  | evaluate on source => exact s.ask_answers List.mem_cons_self fun c hc => .evaluate hc
  | setSeparator on char =>
    rw [step]
    cases hc : s[on]? with
    | none => exact .missing List.mem_cons_self (view_getElem?_none hc)
    | some c =>
      rcases c.setSeparator_cases char with ⟨separator, hchar, hset, -⟩ | ⟨e, hchar, hset, -⟩
      · simp only [hset]
        exact .accepted (view_getElem? hc) hchar
      · simp only [hset]
        exact .refused (view_getElem? hc) hchar
  | separator on => exact s.ask_answers List.mem_cons_self fun c hc => .separator hc
  | register on name f =>
    rw [step]
    cases hc : s[on]? with
    | none => exact .missing List.mem_cons_self (view_getElem?_none hc)
    | some c => exact .register (view_getElem? hc)
  | contains on name => exact s.ask_answers List.mem_cons_self fun c hc => .contains hc
  | sameSeparator on other =>
    refine s.ask_answers List.mem_cons_self fun c hc => ?_
    cases hd : s[other]? with
    | none => exact .missing (List.mem_cons_of_mem _ List.mem_cons_self) (view_getElem?_none hd)
    | some d => exact .sameSeparator hc (view_getElem? hd)
  | describe on =>
    refine s.ask_answers List.mem_cons_self fun c hc => ?_
    obtain ⟨names, hascend, hmem, htext⟩ := c.describe_view
    rw [htext]
    exact .describe hc hascend hmem

variable {s} {s' : Session} (h : s.map Calculator.view = s'.map Calculator.view)
include h

theorem getElem?_of_views (on : Nat) :
    (s[on]? = none ∧ s'[on]? = none) ∨
      ∃ c c', s[on]? = some c ∧ s'[on]? = some c' ∧ c.view = c'.view := by
  have hget : s[on]?.map Calculator.view = s'[on]?.map Calculator.view := by
    rw [← List.getElem?_map, h, List.getElem?_map]
  cases hc : s[on]? with
  | none =>
    rw [hc] at hget
    exact .inl ⟨rfl, Option.map_eq_none_iff.mp hget.symm⟩
  | some c =>
    rw [hc] at hget
    obtain ⟨c', hc', hview⟩ := Option.map_eq_some_iff.mp hget.symm
    exact .inr ⟨c, c', rfl, hc', hview.symm⟩

theorem ask_of_views {on : Nat} {reply reply' : Calculator → Reply}
    (hreply : ∀ c c', c.view = c'.view → reply c = reply' c') :
    (s.ask on reply).2 = (s'.ask on reply').2 := by
  rw [ask, ask]
  rcases getElem?_of_views h on with ⟨hc, hc'⟩ | ⟨c, c', hc, hc', hview⟩
  · rw [hc, hc']
    rfl
  · rw [hc, hc']
    exact hreply c c' hview

theorem step_of_views (command : Command) : (s.step command).2 = (s'.step command).2 := by
  have hlength : s.length = s'.length := by simpa using congrArg List.length h
  have hseparator {c c' : Calculator} (hview : c.view = c'.view) : c.separator = c'.separator :=
    congrArg View.separator hview
  cases command with
  | create separator => exact congrArg Reply.made hlength
  | clone on | createLike on | register on name f =>
    rw [step, step]
    rcases getElem?_of_views h on with ⟨hc, hc'⟩ | ⟨c, c', hc, hc', -⟩
    · rw [hc, hc']
    · simp only [hc, hc', add, hlength]
  | evaluate on source =>
    refine ask_of_views h fun c c' hview => ?_
    rw [c.evaluate_view, c'.evaluate_view, hview, hseparator hview]
  | setSeparator on char =>
    rw [step, step]
    rcases getElem?_of_views h on with ⟨hc, hc'⟩ | ⟨c, c', hc, hc', hview⟩
    · rw [hc, hc']
    · simp only [hc, hc', Calculator.setSeparator]
      cases Separator.ofChar char with
      | ok separator => rfl
      | error e => exact congrArg (Reply.chosen (some e)) (hseparator hview)
  | separator on =>
    exact ask_of_views h fun c c' hview => congrArg Reply.separator (hseparator hview)
  | contains on name =>
    refine ask_of_views h fun c c' hview => congrArg Reply.answer ?_
    exact congrArg (fun v : View => (v.resolve name).isSome) hview
  | sameSeparator on other =>
    refine ask_of_views h fun c c' hview => ?_
    rcases getElem?_of_views h other with ⟨hd, hd'⟩ | ⟨d, d', hd, hd', hother⟩
    · rw [hd, hd']
      rfl
    · rw [hd, hd', hseparator hview]
      simp only [Option.map_some, hseparator hother]
  | describe on =>
    exact ask_of_views h fun c c' hview => congrArg Reply.text (Calculator.describe_of_view hview)

/-- A run from calculators that amount to the same has the same replies. -/
theorem replies_of_views (commands : List Command) : (run s commands).2 = (run s' commands).2 := by
  induction commands generalizing s s' with
  | nil => rfl
  | cons command commands ih =>
    have hnext : (s.step command).1.map Calculator.view =
        (s'.step command).1.map Calculator.view := by
      rw [view_step, view_step, h]
    exact congrArg₂ List.cons (step_of_views h command) (ih hnext)

omit h in
theorem run_append (s : Session) (front back : List Command) :
    run s (front ++ back) =
      ((run (run s front).1 back).1, (run s front).2 ++ (run (run s front).1 back).2) := by
  induction front generalizing s with
  | nil => rfl
  | cons command front ih =>
    simp only [List.cons_append, run, ih]

end Session

end Reckoner

import Reckoner.Proofs.Calculator.Answers
import Reckoner.Proofs.Calculator.History

/-!
# Sessions and histories

What a calculator answers is decided by what it was asked to change, and by nothing else. Main
statement: every reply of a session is the one that the histories of its calculators call for.
-/
namespace Reckoner

/-- The histories of the calculators of a session, by number, after one more command. -/
def record (histories : List History) : Command → List History
  | .create separator => histories ++ [⟨separator, []⟩]
  | .clone on => histories ++ histories[on]?.toList
  | .createLike on =>
    histories ++ (histories[on]?.map fun h => (⟨h.separator, []⟩ : History)).toList
  | .setSeparator on char => histories.modify on (·.add (.separator char))
  | .register on name f => histories.modify on (·.add (.function name f))
  | .evaluate _ _ | .separator _ | .contains _ _ | .sameSeparator _ _ | .describe _ => histories

def histories (commands : List Command) : List History := commands.foldl record []

def Command.changed? : Command → Option Nat
  | setSeparator on _ | register on _ _ => some on
  | _ => none

theorem view_record (hs : List History) (command : Command) :
    (record hs command).map History.view = View.step (hs.map History.view) command := by
  cases command with
  | create separator => simp [record, View.step, History.view_made]
  | clone on =>
    simp only [record, View.step, List.map_append, List.getElem?_map]
    cases hs[on]? <;> rfl
  | createLike on =>
    simp only [record, View.step, List.map_append, List.getElem?_map]
    cases hs[on]? <;> rfl
  | setSeparator on char => exact map_modify (fun h => h.view_add_separator char) hs on
  | register on name f => exact map_modify (fun h => h.view_add_function name f) hs on
  | evaluate | separator | contains | sameSeparator | describe => rfl

namespace Session

variable (s : Session)

/-- The calculators of a session amount to what their histories say. -/
theorem view_run (commands : List Command) {hs : List History}
    (h : s.map Calculator.view = hs.map History.view) :
    (run s commands).1.map Calculator.view = (commands.foldl record hs).map History.view := by
  induction commands generalizing s hs with
  | nil => exact h
  | cons command commands ih =>
    refine ih (s.step command).1 ?_
    rw [view_step, h, view_record]

theorem length_replies (commands : List Command) : (run s commands).2.length = commands.length := by
  induction commands generalizing s with
  | nil => rfl
  | cons command commands ih => exact congrArg (· + 1) (ih (s.step command).1)

/-- The reply to a command is that of a step behind the commands in front of it. -/
theorem reply_run (front back : List Command) (command : Command) :
    (run s (front ++ command :: back)).2[front.length]? =
      some ((run s front).1.step command).2 := by
  rw [run_append, List.getElem?_append_right (Nat.le_of_eq (s.length_replies front)),
    length_replies, Nat.sub_self]
  rfl

theorem step_register (on : Nat) (name : String) (f : Float → Float) :
    (s.step (.register on name f)).1.length = s.length ∧
      (s.step (.register on name f)).2 =
        if on < s.length then .registered else .noSuchCalculator := by
  rw [step]
  cases hc : s[on]? with
  | none => simp [List.getElem?_eq_none_iff.mp hc]
  | some c => simp [(List.getElem?_eq_some_iff.mp hc).1]

theorem replies_register_comm {a b : String} (hne : a ≠ b) (on : Nat) (f g : Float → Float)
    (commands : List Command) :
    (run s (.register on a f :: .register on b g :: commands)).2 =
      (run s (.register on b g :: .register on a f :: commands)).2 := by
  have hviews : ((s.step (.register on a f)).1.step (.register on b g)).1.map Calculator.view =
      ((s.step (.register on b g)).1.step (.register on a f)).1.map Calculator.view := by
    simp only [view_step, View.step, List.modify_modify_eq]
    exact congrArg _ (funext fun v => v.register_comm hne f g)
  have hlater := replies_of_views hviews commands
  simp only [run, step_register, hlater]

theorem step_elsewhere (command : Command) {i : Nat} (hi : i < s.length)
    (hne : command.changed? ≠ some i) : (s.step command).1[i]? = s[i]? := by
  cases command with
  | create separator => exact List.getElem?_append_left hi
  | clone on | createLike on =>
    rw [step]
    cases s[on]? with
    | none => rfl
    | some c => exact List.getElem?_append_left hi
  | setSeparator on char =>
    have hon : on ≠ i := fun hon => hne (congrArg some hon)
    rw [step]
    cases s[on]? with
    | none => rfl
    | some c =>
      cases hset : c.setSeparator char with
      | ok changed => simp only [hset, List.getElem?_set_ne hon]
      | error e => simp only [hset]
  | register on name f =>
    have hon : on ≠ i := fun hon => hne (congrArg some hon)
    rw [step]
    cases s[on]? with
    | none => rfl
    | some c => exact List.getElem?_set_ne hon
  | evaluate | separator | contains | sameSeparator | describe => rfl

theorem step_refused {on : Nat} {char : Char} {e : SeparatorError}
    (h : Separator.ofChar char = .error e) : (s.step (.setSeparator on char)).1 = s := by
  rw [step]
  cases s[on]? with
  | none => rfl
  | some c =>
    simp only [Calculator.setSeparator, h]
    rfl

end Session

/-- Every command of a session is answered from the histories of its calculators: the separator is
the last that was accepted, and a name stands for the function that was last registered under it, or
else the built-in one. A separator in effect is one that is accepted. An evaluation and a refused
separator change nothing, functions may be registered in either order under different names, and a
command leaves every calculator but its own as it is. -/
theorem session_replies :
    (∀ (front back : List Command) (command : Command),
      ∃ reply, (Session.run [] (front ++ command :: back)).2[front.length]? = some reply ∧
        Answers ((histories front).map History.view) command reply) ∧
    (∀ (commands : List Command), ∀ c ∈ (Session.run [] commands).1,
      Separator.ofChar c.separator.char = .ok c.separator) ∧
    (∀ (s : Session) (on : Nat) (source : String), (s.step (.evaluate on source)).1 = s) ∧
    (∀ (s : Session) (on : Nat) (char : Char) (e : SeparatorError),
      Separator.ofChar char = .error e → (s.step (.setSeparator on char)).1 = s) ∧
    (∀ (front back : List Command) (on : Nat) (a b : String) (f g : Float → Float), a ≠ b →
      (Session.run [] (front ++ .register on a f :: .register on b g :: back)).2 =
        (Session.run [] (front ++ .register on b g :: .register on a f :: back)).2) ∧
    (∀ (s : Session) (command : Command) (i : Nat), i < s.length → command.changed? ≠ some i →
      (s.step command).1[i]? = s[i]?) := by
  refine ⟨fun front back command => ⟨_, Session.reply_run [] front back command, ?_⟩,
    fun commands c _ => c.separator.ofChar_char, fun s on source => rfl,
    fun s on char e => s.step_refused, fun front back on a b f g hne => ?_,
    fun s command i => s.step_elsewhere command⟩
  · have hviews : (Session.run [] front).1.map Calculator.view =
        (histories front).map History.view := Session.view_run [] front rfl
    rw [← hviews]
    exact Session.answers_step _ command
  · rw [Session.run_append, Session.run_append, Session.replies_register_comm _ hne]

end Reckoner

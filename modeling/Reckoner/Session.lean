import Reckoner.Calculator

/-!
# Sessions

A session works on calculators numbered in the order in which they were made. A command names the
calculators that it is about, and gets one reply.
-/
namespace Reckoner

/-- The calculators of a session, by number. -/
abbrev Session := List Calculator

inductive Command where
  | create (separator : Separator)
  | clone (on : Nat)
  /-- Makes a calculator with another one's separator and the built-in functions. -/
  | createLike (on : Nat)
  | evaluate (on : Nat) (source : String)
  | setSeparator (on : Nat) (char : Char)
  | separator (on : Nat)
  | register (on : Nat) (name : String) (f : Float → Float)
  | contains (on : Nat) (name : String)
  | sameSeparator (on other : Nat)
  | describe (on : Nat)

inductive Reply where
  | made (index : Nat)
  /-- The outcome of an evaluation and the separator that it was under. -/
  | outcome (result : Except EvalError Float) (separator : Separator)
  /-- Whether a separator was taken, and the separator now in effect. -/
  | chosen (refused : Option SeparatorError) (current : Separator)
  | separator (current : Separator)
  | registered
  | answer (yes : Bool)
  | text (text : String)
  | noSuchCalculator
deriving Inhabited

namespace Session

def add (s : Session) (c : Calculator) : Session × Reply :=
  (s ++ [c], .made s.length)

def ask (s : Session) (on : Nat) (reply : Calculator → Reply) : Session × Reply :=
  (s, (s[on]?.map reply).getD .noSuchCalculator)

def step (s : Session) : Command → Session × Reply
  | .create separator => s.add (.ofSeparator separator)
  | .clone on =>
    match s[on]? with
    | some c => s.add c
    | none => (s, .noSuchCalculator)
  | .createLike on =>
    match s[on]? with
    | some c => s.add (.ofSeparator c.separator)
    | none => (s, .noSuchCalculator)
  | .evaluate on source => s.ask on fun c => .outcome (c.evaluate source) c.separator
  | .setSeparator on char =>
    match s[on]? with
    | some c =>
      match c.setSeparator char with
      | .ok changed => (s.set on changed, .chosen none changed.separator)
      | .error e => (s, .chosen (some e) c.separator)
    | none => (s, .noSuchCalculator)
  | .separator on => s.ask on fun c => .separator c.separator
  | .register on name f =>
    match s[on]? with
    | some c => (s.set on (c.register name f), .registered)
    | none => (s, .noSuchCalculator)
  | .contains on name => s.ask on fun c => .answer (c.functions.contains name)
  | .sameSeparator on other =>
    s.ask on fun c =>
      (s[other]?.map fun d => Reply.answer (decide (c.separator = d.separator))).getD
        .noSuchCalculator
  | .describe on => s.ask on fun c => .text c.describe

def run (s : Session) : List Command → Session × List Reply
  | [] => (s, [])
  | command :: commands =>
    let (s, reply) := s.step command
    let (s, replies) := Session.run s commands
    (s, reply :: replies)

end Session

end Reckoner

/-!
# Command line arguments

Arguments are taken from left to right. Options may stand before and behind the one expression; two
hyphens end them. A request for help or for the version is met as soon as it is reached.
-/
namespace Reckoner.CommandLine

inductive Invocation where
  | usageError
  | help
  | version
  /-- Evaluate the expression, or the lines of standard input if there is none. -/
  | compute (separator : Char) (expression : Option String)
deriving DecidableEq

/-- What one argument is, as long as options may stand. -/
inductive Argument where
  | endOfOptions
  | help
  | version
  /-- The separator option; its value is the next argument if it does not carry one. -/
  | separator (value : Option String)
  | operand (text : String)
  | unknown
deriving DecidableEq

namespace Argument

def ofLong (name : List Char) (value : Option String) : Argument :=
  match String.ofList name, value with
  | "decimal-separator", value => separator value
  | "help", none => help
  | "version", none => version
  | _, _ => unknown

def splitLong (text : List Char) : List Char × Option String :=
  (text.takeWhile (· ≠ '='), match text.dropWhile (· ≠ '=') with
    | [] => none
    | _ :: value => some (String.ofList value))

/-- The short option with this letter and the characters behind it. An equals sign in front of a
value is no part of it. -/
def ofShort (letter : Char) (more : List Char) : Argument :=
  match letter, more with
  | 'h', _ => help
  | 'V', _ => version
  | 'd', [] => separator none
  | 'd', '=' :: value => separator (some (String.ofList value))
  | 'd', value => separator (some (String.ofList value))
  | _, _ => unknown

/-- Tells what an argument is. A hyphen alone is an operand. -/
def ofString (text : String) : Argument :=
  match text.toList with
  | ['-', '-'] => endOfOptions
  | '-' :: '-' :: long => ofLong (splitLong long).1 (splitLong long).2
  | '-' :: letter :: more => ofShort letter more
  | _ => operand text

end Argument

structure Given where
  separator : Option Char
  expression : Option String
deriving DecidableEq

namespace Given

/-- Takes the value of the separator option: one character, and only once. -/
def withSeparator (given : Given) (value : String) : Option Given :=
  match given.separator, value.toList with
  | none, [c] => some { given with separator := some c }
  | _, _ => none

def withExpression (given : Given) (text : String) : Option Given :=
  match given.expression with
  | none => some { given with expression := some text }
  | some _ => none

def invocation (given : Given) : Invocation :=
  .compute (given.separator.getD '.') given.expression

/-- Takes arguments behind the end of options. -/
def takeOperands (given : Given) : List String → Invocation
  | [] => given.invocation
  | text :: rest =>
    match given.withExpression text with
    | some given => given.takeOperands rest
    | none => .usageError

/-- An argument that can stand as the value of an option: it does not look like an option. -/
def isValue (text : String) : Bool :=
  match Argument.ofString text with
  | .operand _ => true
  | _ => false

def takeArguments (given : Given) : List String → Invocation
  | [] => given.invocation
  | text :: rest =>
    match Argument.ofString text with
    | .endOfOptions => given.takeOperands rest
    | .help => .help
    | .version => .version
    | .unknown => .usageError
    | .operand text =>
      match given.withExpression text with
      | some given => given.takeArguments rest
      | none => .usageError
    | .separator (some value) =>
      match given.withSeparator value with
      | some given => given.takeArguments rest
      | none => .usageError
    | .separator none =>
      match rest with
      | [] => .usageError
      | value :: rest =>
        if isValue value then
          match given.withSeparator value with
          | some given => given.takeArguments rest
          | none => .usageError
        else .usageError

end Given

def Invocation.ofArguments (arguments : List String) : Invocation :=
  Given.takeArguments ⟨none, none⟩ arguments

end Reckoner.CommandLine

import Reckoner.CommandLine.Arguments
import Reckoner.CommandLine.Batch

/-!
# The program

What a run writes and how it ends, as a function of its arguments and its standard input.
-/
namespace Reckoner.CommandLine

def versionText : String := "calcula 0.1.0"

def usageText : String := "Usage: calcula [OPTIONS] [EXPRESSION]"

def helpText : String := "\n".intercalate
  ["calcula evaluates arithmetic expressions such as `2 ^ 3 - cos 60`",
    "",
    usageText,
    "",
    "Arguments:",
    "  [EXPRESSION]  Expression to evaluate. When omitted, every line of standard input is " ++
      "evaluated in turn",
    "",
    "Options:",
    "  -d, --decimal-separator <DECIMAL_SEPARATOR>  Character separating the integer and " ++
      "fractional parts of numbers [default: .]",
    "  -h, --help                                   Print help",
    "  -V, --version                                Print version"]

def usageErrorText : String :=
  "error: invalid arguments\n\n" ++ usageText ++ "\n\nFor more information, try '--help'."

/-- The run of the program with a calculator at hand. An expression's error decides the exit code;
the errors of a batch do not. -/
def compute (c : Calculator) (expression : Option String) (input : List UInt8) : Transcript :=
  match expression with
  | none => batch c input
  | some source =>
    match c.evaluate source with
    | .ok value => (Transcript.silent 0).printing (render value c.separator.char)
    | .error e => (Transcript.silent 1).reporting e.message

def Invocation.run (invocation : Invocation) (input : List UInt8) : Transcript :=
  match invocation with
  | .usageError => (Transcript.silent 2).reporting usageErrorText
  | .help => (Transcript.silent 0).printing helpText
  | .version => (Transcript.silent 0).printing versionText
  | .compute char expression =>
    match Separator.ofChar char with
    | .error e => (Transcript.silent 2).reporting e.message
    | .ok separator => CommandLine.compute (.ofSeparator separator) expression input

def Invocation.readsInput : Invocation → Bool
  | .compute char none => !isReserved char
  | _ => false

end Reckoner.CommandLine

import Reckoner.Calculator

/-!
# Batches

A batch evaluates every line of its input in turn. Results and errors go to different streams, each
in the order of the lines; lines of white space are passed over. A line that is not UTF-8 ends the
batch.
-/
namespace Reckoner.CommandLine

/-- What a run leaves behind: its exit code and what it wrote. -/
structure Transcript where
  code : Nat
  stdout : String
  stderr : String
deriving DecidableEq

namespace Transcript

def printing (line : String) (t : Transcript) : Transcript :=
  { t with stdout := line ++ "\n" ++ t.stdout }

def reporting (line : String) (t : Transcript) : Transcript :=
  { t with stderr := line ++ "\n" ++ t.stderr }

def silent (code : Nat) : Transcript := ⟨code, "", ""⟩

end Transcript

/-- The lines of some bytes. A line ends with a line feed, in front of which a carriage return is
dropped, or with the input. -/
def lines : List UInt8 → List (List UInt8)
  | [] => []
  | b :: rest =>
    if b = 10 then [] :: lines rest
    else if b = 13 ∧ rest.head? = some 10 then lines rest
    else match lines rest with
      | [] => [[b]]
      | line :: more => (b :: line) :: more

def decodeLine? (line : List UInt8) : Option String :=
  String.fromUTF8? line.toByteArray

def isEmptyLine (line : String) : Bool := line.toList.all Text.isWhiteSpace

def answer (c : Calculator) (source : String) (next : Transcript) : Transcript :=
  match c.evaluate source with
  | .ok value => next.printing (render value c.separator.char)
  | .error e => next.reporting e.message

def answerLines (c : Calculator) : List (List UInt8) → Transcript
  | [] => .silent 0
  | line :: rest =>
    match decodeLine? line with
    | none => (Transcript.silent 1).reporting "Failed to read from standard input."
    | some source =>
      if isEmptyLine source then answerLines c rest else answer c source (answerLines c rest)

def batch (c : Calculator) (input : List UInt8) : Transcript :=
  answerLines c (lines input)

end Reckoner.CommandLine

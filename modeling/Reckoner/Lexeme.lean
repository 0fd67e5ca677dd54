import Reckoner.EvalError
import Reckoner.Token

/-!
# Lexemes

A source is cut, from left to right, into blanks and lexemes. The first character of a lexeme
decides which characters after it belong to it too; the lexeme's text then is a token or a fault.
The separator is any character here: it continues a number even where it has another meaning, and
starts one where it has none.
-/
namespace Reckoner

def isBlank (c : Char) : Bool :=
  c = ' ' || c = '\t' || c = '\r' || c = '\n' || c = '\x0c'

inductive Fault where
  | unknownCharacter (character : Char)
  | malformedNumber
deriving DecidableEq

/-- A piece of the source: its byte offset, its text and the token that it is, if it is one. -/
structure Lexeme where
  start : Nat
  text : List Char
  content : Except Fault Token

def byteLength (text : List Char) : Nat :=
  text.foldr (fun c n => c.utf8Size + n) 0

theorem byteLength_cons (c : Char) (text : List Char) :
    byteLength (c :: text) = c.utf8Size + byteLength text := rfl

namespace Lexeme

def stop (l : Lexeme) : Nat := l.start + byteLength l.text

/-- Where the lexeme stands, as a token or as the error that it causes. -/
def item (l : Lexeme) : Except EvalError Located :=
  match l.content with
  | .ok token => .ok ⟨token, l.start⟩
  | .error (.unknownCharacter character) => .error ⟨l.start, .unknownCharacter character⟩
  | .error .malformedNumber => .error ⟨l.start, .malformedNumber (String.ofList l.text)⟩

end Lexeme

/-- Reads a number: with points for separators it is a plain decimal numeral. -/
def readNumber (separator : Char) (text : List Char) : Except Fault Token :=
  match Decimal.ofText? (text.map fun c => if c = separator then '.' else c) with
  | some d => .ok (.number d.toFloat)
  | none => .error .malformedNumber

/-- Where cutting a text stands: the piece that is taken and the text behind it. -/
structure Cursor where
  slice : List Char
  remainder : List Char
deriving DecidableEq

namespace Cursor

/-- The cursor behind the characters in front of a text that fit into a number of bytes. -/
def within (bytes : Nat) : List Char → Cursor
  | [] => ⟨[], []⟩
  | c :: cs =>
    if c.utf8Size ≤ bytes then
      let behind := within (bytes - c.utf8Size) cs
      ⟨c :: behind.slice, behind.remainder⟩
    else ⟨[], c :: cs⟩

def bump (cursor : Cursor) (bytes : Nat) : Cursor :=
  let next := within bytes cursor.remainder
  ⟨cursor.slice ++ next.slice, next.remainder⟩

/-- The piece of `c` and the characters behind it that are of one class. -/
def run (continues : Char → Bool) (c : Char) (cs : List Char) : Cursor :=
  ⟨c :: cs.takeWhile continues, cs.dropWhile continues⟩

theorem within_append (bytes : Nat) (text : List Char) :
    (within bytes text).slice ++ (within bytes text).remainder = text := by
  fun_induction within bytes text with
  | case1 bytes => rfl
  | case2 bytes c cs hfits behind ih => exact congrArg (c :: ·) ih
  | case3 bytes c cs hfits => rfl

theorem bump_append (cursor : Cursor) (bytes : Nat) :
    (cursor.bump bytes).slice ++ (cursor.bump bytes).remainder =
      cursor.slice ++ cursor.remainder := by
  rw [bump, List.append_assoc, within_append]

end Cursor

structure Tally where
  separators : Nat
  bytes : Nat
deriving DecidableEq

namespace Tally

/-- Counts on through the digits and separators in front of a text. A digit is never counted as a
separator, and takes one byte. -/
def through (separator : Char) (tally : Tally) : List Char → Tally
  | [] => tally
  | c :: cs =>
    if c.isDigit then through separator ⟨tally.separators, tally.bytes + 1⟩ cs
    else if c = separator then
      through separator ⟨tally.separators + 1, tally.bytes + c.utf8Size⟩ cs
    else tally

end Tally

/-- Takes the digits and separators behind a piece into it and reads the piece as a number. With
more than one separator it is none; the separators of the piece itself count as one if it starts
with one. -/
def scanNumber (separator : Char) (cursor : Cursor) : Cursor × Except Fault Token :=
  let opening := if cursor.slice.head? = some separator then 1 else 0
  let tally := Tally.through separator ⟨opening, 0⟩ cursor.remainder
  let number := cursor.bump tally.bytes
  (number,
    if 1 < tally.separators then .error .malformedNumber else readNumber separator number.slice)

/-- Takes the lexeme that starts with `c`, and what it is. A number starts with its digits in front
of the first separator, or with a separator that has no other meaning. -/
def scan (separator c : Char) (cs : List Char) : Cursor × Except Fault Token :=
  if c.isDigit then scanNumber separator (.run Char.isDigit c cs)
  else if c.isAlpha then
    let name := Cursor.run Char.isAlpha c cs
    (name, .ok (.identifier (String.ofList name.slice)))
  else match Symbol.ofChar? c with
    | some s => (⟨[c], cs⟩, .ok (.symbol s))
    | none =>
      if c = separator then scanNumber separator ⟨[c], cs⟩
      else (⟨[c], cs⟩, .error (.unknownCharacter c))

theorem scanNumber_append (separator : Char) (cursor : Cursor) :
    (scanNumber separator cursor).1.slice ++ (scanNumber separator cursor).1.remainder =
      cursor.slice ++ cursor.remainder :=
  cursor.bump_append _

theorem scan_slice (separator c : Char) (cs : List Char) :
    ∃ more, (scan separator c cs).1.slice = c :: more ∧
      more ++ (scan separator c cs).1.remainder = cs := by
  have hnumber (cursor : Cursor) (front : List Char) (hslice : cursor.slice = c :: front) :
      ∃ more, (scanNumber separator cursor).1.slice = c :: more ∧
        more ++ (scanNumber separator cursor).1.remainder = front ++ cursor.remainder := by
    have happend := scanNumber_append separator cursor
    rw [scanNumber, Cursor.bump, hslice, List.cons_append] at happend ⊢
    exact ⟨_, rfl, (List.cons.inj happend).2⟩
  rw [scan]
  split
  · obtain ⟨more, hslice, hmore⟩ := hnumber (.run Char.isDigit c cs) _ rfl
    exact ⟨more, hslice, hmore.trans List.takeWhile_append_dropWhile⟩
  · split
    · exact ⟨_, rfl, List.takeWhile_append_dropWhile⟩
    · split
      · exact ⟨[], rfl, rfl⟩
      · split
        · exact hnumber ⟨[c], cs⟩ [] rfl
        · exact ⟨[], rfl, rfl⟩

/-- The lexemes of a text that starts at the byte offset `start`. -/
def lexemesFrom (separator : Char) (start : Nat) : List Char → List Lexeme
  | [] => []
  | c :: cs =>
    if isBlank c then lexemesFrom separator (start + c.utf8Size) cs
    else
      let taken := scan separator c cs
      ⟨start, taken.1.slice, taken.2⟩ ::
        lexemesFrom separator (start + byteLength taken.1.slice) taken.1.remainder
termination_by text => text.length
decreasing_by
  · simp
  · obtain ⟨more, -, hmore⟩ := scan_slice separator c cs
    have := congrArg List.length hmore
    simp only [List.length_append, List.length_cons] at this ⊢
    omega

theorem lexemesFrom_nil (separator : Char) (start : Nat) :
    lexemesFrom separator start [] = [] := by
  rw [lexemesFrom]

theorem lexemesFrom_blank (separator : Char) (start : Nat) {c : Char} (cs : List Char)
    (h : isBlank c = true) :
    lexemesFrom separator start (c :: cs) = lexemesFrom separator (start + c.utf8Size) cs := by
  rw [lexemesFrom, if_pos h]

theorem lexemesFrom_scan (separator : Char) (start : Nat) {c : Char} (cs : List Char)
    (h : isBlank c = false) :
    lexemesFrom separator start (c :: cs) =
      let taken := scan separator c cs
      ⟨start, taken.1.slice, taken.2⟩ ::
        lexemesFrom separator (start + byteLength taken.1.slice) taken.1.remainder := by
  rw [lexemesFrom, if_neg (by simp [h])]

def lexemes (separator : Char) (source : String) : List Lexeme :=
  lexemesFrom separator 0 source.toList

end Reckoner

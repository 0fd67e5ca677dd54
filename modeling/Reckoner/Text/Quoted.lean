import Reckoner.Text.DefaultIgnorable
import Reckoner.Text.GraphemeExtend
import Reckoner.Text.Unprintable

/-!
# Quoted text

Text between quotes in which nothing is invisible: the quote and the backslash are escaped, usual
controls have short names, and every other character that cannot be seen on its own is written by
its code point.
-/
namespace Reckoner.Text

/-- A `u` escape: the code point between braces, in lower case hexadecimal without padding. -/
def codePointEscape (c : Char) : List Char :=
  ['\\', 'u', '\x7b'] ++ Nat.toDigits 16 c.toNat ++ ['\x7d']

/-- The two sound marks of halfwidth katakana. They extend a grapheme, but as letters with a width
of their own they can be seen. -/
def isHalfwidthSoundMark (c : Char) : Bool := c = '\uff9e' || c = '\uff9f'

/-- The character cannot be seen on its own: it is drawn over the one before it, is ignored or has
no form at all. -/
def isInvisible (c : Char) : Bool :=
  (extendsGrapheme c && !isHalfwidthSoundMark c) || isDefaultIgnorable c || isUnprintable c

/-- How a character is written between two marks `quote`. -/
def escape (quote c : Char) : List Char :=
  if c = '\x00' then ['\\', '0']
  else if c = '\t' then ['\\', 't']
  else if c = '\r' then ['\\', 'r']
  else if c = '\n' then ['\\', 'n']
  else if c = '\\' ∨ c = quote then ['\\', c]
  else if isInvisible c then codePointEscape c
  else [c]

def enclose (quote : Char) (text : List Char) : String :=
  String.ofList (quote :: text.flatMap (escape quote) ++ [quote])

def quoteChar (c : Char) : String := enclose '\x27' [c]

def quoteString (s : String) : String := enclose '\x22' s.toList

end Reckoner.Text

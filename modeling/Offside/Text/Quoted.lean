import Offside.Text.Unprintable
import Offside.Text.GraphemeExtend

/-!
# Quoted text in messages

A message that shows a piece of the user's input puts it between quotes and
escapes whatever would be misread there: the quote itself, the backslash, the
usual control characters by letter, and every other character that does not
show by itself by its code point in hexadecimal.
-/

namespace Offside.Text

/-- The lower-case hexadecimal digits of a number, without leading zeros. -/
def hexDigits (n : Nat) : List Char :=
  Nat.toDigits 16 n

/-- A character named by its code point, as in `\u{301}`. -/
def escapePoint (c : Char) : List Char :=
  ['\\', 'u', '\x7b'] ++ hexDigits c.toNat ++ ['\x7d']

/-- How one character is written between the given quotes. -/
def escape (quote : Char) (c : Char) : List Char :=
  if c = '\x00' then ['\\', '0']
  else if c = '\t' then ['\\', 't']
  else if c = '\r' then ['\\', 'r']
  else if c = '\n' then ['\\', 'n']
  else if c = '\\' then ['\\', '\\']
  else if c = quote then ['\\', c]
  else if isGraphemeExtend c || isUnprintable c then escapePoint c
  else [c]

/-- A run of characters between the given quotes. -/
def quoteWith (quote : Char) (chars : List Char) : String :=
  String.ofList (quote :: chars.flatMap (escape quote) ++ [quote])

/-- A text in double quotes. -/
def quoteText (text : String) : String :=
  quoteWith '"' text.toList

/-- A character in single quotes. -/
def quoteChar (c : Char) : String :=
  quoteWith '\'' [c]

end Offside.Text

import Sigil.Text.Hex
import Sigil.Text.Printable

/-!
# Text shown in a message

A message shows a text between single quotes, or between double quotes if that saves escaping: when
the text holds a single quote and no double one. The quote around it and the backslash are escaped
by a backslash, the three common controls by a letter, and any other character that is not printable
by its code in as few of two, four or eight digits as hold it.
-/

namespace Sigil.Text

/-- The code of a character after a backslash, in the shortest of the three widths. -/
def codeEscape (c : Char) : List Char :=
  let n := c.toNat
  if n < 0x100 then '\\' :: 'x' :: hexDigits 2 n
  else if n < 0x10000 then '\\' :: 'u' :: hexDigits 4 n
  else '\\' :: 'U' :: hexDigits 8 n

/-- One character inside the given quotes. -/
def displayChar (quote c : Char) : List Char :=
  if c = quote ∨ c = '\\' then ['\\', c]
  else if c = '\n' then ['\\', 'n']
  else if c = '\r' then ['\\', 'r']
  else if c = '\t' then ['\\', 't']
  else if isPrintable c then [c]
  else codeEscape c

/-- The quotes a text is shown in. -/
def displayQuote (cs : List Char) : Char :=
  if cs.contains '\'' && !cs.contains '"' then '"' else '\''

/-- A text as a message shows it. -/
def display (s : String) : String :=
  let quote := displayQuote s.toList
  String.ofList (quote :: s.toList.flatMap (displayChar quote) ++ [quote])

end Sigil.Text

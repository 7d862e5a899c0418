import Sigil.Text.Hex

/-!
# Quoted text

The canonical form writes a text between double quotes. The quote, the backslash and the control
characters below the space are escaped, five of the controls by a letter and the others by a code of
four digits; every other character stands as it is.
-/

namespace Sigil.Text

def quotedChar (c : Char) : List Char :=
  if c = '"' ∨ c = '\\' then ['\\', c]
  else if c = '\n' then ['\\', 'n']
  else if c = '\r' then ['\\', 'r']
  else if c = '\t' then ['\\', 't']
  else if c = '\x08' then ['\\', 'b']
  else if c = '\x0C' then ['\\', 'f']
  else if c.toNat < 0x20 then '\\' :: 'u' :: hexDigits 4 c.toNat
  else [c]

def quoted (s : String) : String :=
  String.ofList ('"' :: s.toList.flatMap quotedChar ++ ['"'])

end Sigil.Text

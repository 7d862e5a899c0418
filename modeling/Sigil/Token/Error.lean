import Sigil.Text.Display

/-!
# Faults of spelling

A text that is not a sequence of tokens has one first fault. It is reported with the place where it
stands and the character it is about: the character itself, the first one of a number out of range,
the one after the backslash of an unknown escape, or the quote that opens a string without an end.
-/

namespace Sigil

inductive Misspelling where
  | unexpected (char : Char)
  | outOfRange (first : Char)
  | unknownEscape (char : Char)
  | openString
  deriving DecidableEq, Repr

/-- The character a fault is about. -/
def Misspelling.char : Misspelling → Char
  | .unexpected c => c
  | .outOfRange c => c
  | .unknownEscape c => c
  | .openString => '"'

def Misspelling.describe : Misspelling → String
  | .unexpected c => "Unexpected character " ++ Text.display (String.singleton c)
  | .outOfRange _ => "Numeric literal out of range"
  | .unknownEscape c => "Unknown escape sequence '\\" ++ String.singleton c ++ "'"
  | .openString => "Unterminated string literal"

structure LexError where
  fault : Misspelling
  pos : Nat
  deriving DecidableEq, Repr

def LexError.message (e : LexError) : String :=
  e.fault.describe ++ " at position " ++ toString e.pos

end Sigil

/-!
# Names

A name is a letter of the basic alphabet followed by such letters, digits and underscores. The same
names are read in an expression, in a declaration and in a schema.
-/

namespace Sigil.Text

def isDigit (c : Char) : Bool := '0' ≤ c && c ≤ '9'

/-- A letter of the basic alphabet. -/
def isLetter (c : Char) : Bool := ('a' ≤ c && c ≤ 'z') || ('A' ≤ c && c ≤ 'Z')

/-- A character that a name may go on with. -/
def isNameChar (c : Char) : Bool := isLetter c || isDigit c || c == '_'

def isName : List Char → Bool
  | [] => false
  | c :: cs => isLetter c && cs.all isNameChar

end Sigil.Text

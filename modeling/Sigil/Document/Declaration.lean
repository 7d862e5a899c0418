import Sigil.Text.Blank
import Sigil.Text.Name

/-!
# Declarations

A declaration is a line that gives a name a definition: the name, an equals sign, and the
text. It declares a user type if the word `type` stands in front of the name; a name may be
that word itself. Blanks around each part do not count. The equals sign is a single one, and
the text stays on one line.
-/

namespace Sigil

/-- What a line declares. -/
structure Declaration where
  isType : Bool
  name : String
  text : String
  deriving DecidableEq, Repr

namespace Declaration

open Text

/-- The name and the text of a declaration, in a text that starts with the name. -/
def named? (isType : Bool) (cs : List Char) : Option Declaration :=
  let name := cs.takeWhile isNameChar
  if isName name then
    match trimStart (cs.drop name.length) with
    | '=' :: rest =>
      let text := trim rest
      if rest.head? = some '=' ∨ '\n' ∈ text then none
      else some ⟨isType, String.ofList name, String.ofList text⟩
    | _ => none
  else none

/-- What follows the word `type` and at least one blank, if a name starts there. -/
def afterTypeWord? : List Char → Option (List Char)
  | 't' :: 'y' :: 'p' :: 'e' :: rest =>
    match trimStart rest with
    | c :: cs => if isLetter c && cs.length + 1 < rest.length then some (c :: cs) else none
    | [] => none
  | _ => none

/-- The declaration that a line is. -/
def ofLine? (line : List Char) : Option Declaration :=
  let cs := trimStart line
  match afterTypeWord? cs with
  | some rest => named? true rest
  | none => named? false cs

end Declaration

end Sigil

import Sigil.Document.Declaration
import Sigil.Entries
import Sigil.Text.Display
import Sigil.Text.Lines

/-!
# Documents

A document is lines: declarations, and an expression that may take several. Blank lines and lines
that start with a number sign do not count. The lines of the expression are joined by single spaces,
and of several declarations of one name the last one counts, at the place of the first.
-/

namespace Sigil

structure Document where
  expression : String
  inline : List (String × String)
  userTypes : List (String × String)
  deriving Repr

/-- Why a text is not a document. -/
inductive DocumentError where
  /-- A declaration without a text, in the line of that number. -/
  | emptyDeclaration (line : Nat) (name : String)
  | noExpression
  deriving DecidableEq, Repr

/-- What is wrong with a declaration that has no text. -/
def Declaration.emptyMessage (name : String) : String :=
  "declaration of " ++ Text.display name ++ " has no definition"

def DocumentError.message : DocumentError → String
  | .emptyDeclaration line name =>
    "Line " ++ toString line ++ ": " ++ Declaration.emptyMessage name
  | .noExpression => "Document contains no expression"

namespace Document

open Text

inductive Line where
  | skipped
  | declaration (d : Declaration)
  | expression (text : List Char)
  deriving Repr

def Line.ofText (line : List Char) : Line :=
  let text := trim line
  if text.isEmpty || text.head? == some '#' then .skipped
  else match Declaration.ofLine? line with
    | some d => .declaration d
    | none => .expression text

/-- The lines from one number on, as what they are; a declaration without a text is the error. -/
def readLines (number : Nat) : List (List Char) → Except DocumentError (List Line)
  | [] => .ok []
  | line :: lines => do
    let read := Line.ofText line
    if let .declaration d := read then
      if d.text.isEmpty then .error (.emptyDeclaration number d.name)
    return read :: (← readLines (number + 1) lines)

/-- The declarations among the lines, those of user types or the others. -/
def declared (isType : Bool) (lines : List Line) : List (String × String) :=
  lines.filterMap fun
    | .declaration d => if d.isType = isType then some (d.name, d.text) else none
    | _ => none

def expressionLines (lines : List Line) : List String :=
  lines.filterMap fun
    | .expression text => some (String.ofList text)
    | _ => none

def ofText (s : String) : Except DocumentError Document := do
  let read ← readLines 1 (lines s.toList)
  if (expressionLines read).isEmpty then .error .noExpression
  else return {
    expression := " ".intercalate (expressionLines read)
    inline := Entries.putAll (declared false read) []
    userTypes := Entries.putAll (declared true read) [] }

end Document

end Sigil

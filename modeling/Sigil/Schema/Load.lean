import Sigil.Entries
import Sigil.File
import Sigil.Raised

/-!
# Loading schemas

A schema is loaded from a text or from a file. What it takes beyond the program itself is a
`Loader`: the files, a loader of YAML, the text of a value, and a check of the fields of a record.

The first fault of this order is raised: the file is not read, the text is no YAML, its value is no
map, the version is missing, has no text, is misspelled or too new, a field has a key that is no
text, and last the fields are at fault.
-/

namespace Sigil

/-- A check of the fields of a schema, given what is to be done with the definitions before they are
    checked to be a map of texts, and with those texts after that. -/
abbrev FieldCheck := (before : Value → Except Exception Value) →
  (after : List (String × String) → Except Exception (List (String × String))) →
  List (String × Value) → Except Exception Schema

structure Loader where
  /-- What stands under a path. -/
  entryAt : String → Entry
  /-- The value of a text in YAML. -/
  load : List Char → Except Exception Value
  textOf : Value → Except Exception String
  check : FieldCheck

namespace Schema

variable (loader : Loader)

/-- The entries of a map, if their keys are texts. -/
def namedFields? : List (Key × Value) → Option (List (String × Value))
  | [] => some []
  | (.scalar (.string name), value) :: entries =>
    do return (name, value) :: (← namedFields? entries)
  | _ => none

/-- What is raised about fields of which one has a key that is no text. -/
def unnamedField : Exception := .kind "keywords must be strings"

/-- The schema of fields with this version, which has been made a text and checked. -/
def ofFields (version : String) (entries : List (Key × Value)) : Except Raised Schema :=
  match namedFields? entries with
  | none => .error (.outside unnamedField)
  | some fields =>
    (loader.check scalarsToText checkNames
      (Entries.put "version" (.string version) fields)).mapError Raised.invalidSchema

def ofValue : Value → Except Raised Schema
  | .map entries => match Value.find? "version" entries with
    | none | some (.scalar .null) => .error (.ofSchema .noVersion)
    | some version => do
      let text ← (loader.textOf version).mapError Raised.outside
      (checkVersion text).mapError Raised.ofSchema
      ofFields loader text entries
  | _ => .error (.ofSchema .notMap)

def ofText (cs : List Char) : Except Raised Schema := do
  ofValue loader (← (loader.load cs).mapError Raised.malformedSchema)

def ofPath (path : String) : Except Raised Schema := do
  ofText loader (← ((loader.entryAt path).text path).mapError Raised.unreadableSchema)

end Schema

end Sigil

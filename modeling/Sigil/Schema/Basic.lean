import Sigil.Exception
import Sigil.Number.Text
import Sigil.Text.Integer
import Sigil.Text.Lines
import Sigil.Text.Name
import Sigil.Value.Display

/-!
# Schemas

A schema has a version and the definitions of names. A definition may be a plain scalar, which then
stands for the expression that is written like it.

`scalarsToText` makes texts of such scalars before the definitions are checked to be a map of texts,
and `checkNames` looks at the names after that. Who makes that check in between is left open here.
-/

namespace Sigil

/-- A schema: its version, and the definitions in order. -/
structure Schema where
  version : String
  definitions : List (String × String)
  deriving DecidableEq, Repr

inductive SchemaError where
  | unreadable (why : SystemFault)
  | malformed (why : String)
  | notMap
  | noVersion
  | badVersion (version : String)
  | newerVersion (version : String)
  | invalid (faults : List FieldFault) (why : String)
  deriving DecidableEq, Repr

namespace Schema

/-! ## 1. Versions -/

/-- The latest version that is known, as its two numbers. -/
def latest : Int × Int := (0, 1)

/-- The two numbers of a version: whole numbers around a single point. -/
def numbers? (version : String) : Option (Int × Int) :=
  match Text.pieces '.' version.toList with
  | [major, minor] => do return (← Text.readInt? major, ← Text.readInt? minor)
  | _ => none

/-- Refuses a version that is misspelled or later than the latest. -/
def checkVersion (version : String) : Except SchemaError Unit :=
  match numbers? version with
  | none => .error (.badVersion version)
  | some (major, minor) =>
    if latest.1 < major ∨ major = latest.1 ∧ latest.2 < minor then .error (.newerVersion version)
    else .ok ()

/-! ## 2. Definitions -/

/-- The text of an entry that is a plain scalar, as an expression that is written like
    it. A number that is endless, or a whole one with too many digits, has none. Other
    values stay as they are. -/
def scalarToText (key : Key) : Value → Except Exception Value
  | .scalar .null => .ok (.string "null")
  | .scalar (.bool b) => .ok (.string (if b then "true" else "false"))
  | .scalar (.int n) =>
    if n.natAbs < Nat.pow 10 Text.maxDigits then .ok (.string (toString n))
    else .error (.value (Text.tooManyDigitsMessage ""))
  | .scalar (.float x) =>
    if x.isFinite then .ok (.string x.text)
    else .error (.value ("Definition " ++ key.display ++ " is not a finite number"))
  | value => .ok value

/-- The entries with texts for plain scalars. -/
def entriesToText : List (Key × Value) → Except Exception (List (Key × Value))
  | [] => .ok []
  | (key, value) :: entries => do
    let text ← scalarToText key value
    return (key, text) :: (← entriesToText entries)

def scalarsToText : Value → Except Exception Value
  | .map entries => do return .map (← entriesToText entries)
  | value => .ok value

/-- Refuses the first name that an expression could not refer to. -/
def checkNames (definitions : List (String × String)) :
    Except Exception (List (String × String)) :=
  match definitions.find? fun definition => !Text.isName definition.1.toList with
  | some (name, _) =>
    .error (.value ("Definition name " ++ Text.display name ++ " is not a valid identifier"))
  | none => .ok definitions

end Schema

/-! ## 3. Messages -/

def SchemaError.message : SchemaError → String
  | .unreadable why => "Cannot read file: " ++ why.message
  | .malformed why => "Invalid YAML: " ++ why
  | .notMap => "Top-level YAML value must be a mapping"
  | .noVersion => "Missing required field: version"
  | .badVersion version => "Invalid version format: " ++ Text.display version
  | .newerVersion version =>
    "Unsupported version: " ++ Text.display version ++ " (latest supported is " ++
      toString Schema.latest.1 ++ "." ++ toString Schema.latest.2 ++ ")"
  | .invalid _ why => "Schema validation failed:\n" ++ why

end Sigil

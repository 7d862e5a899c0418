import Sigil.Command.Perform
import Sigil.Outer.Options
import Sigil.Outer.Yaml.Load
import Sigil.Outer.Yaml.Writer

/-!
# The platform that is supplied

What the program is run with here: the loader and the writer of YAML, the check of fields and the
reader of command lines of this layer, texts that are all printed, and walks that nest as deep as
they have room for. Nothing is proved about these parts but that the check of fields keeps its word.
-/

namespace Sigil

/-! ## 1. Values as texts -/

/-- Whether a scalar can be shown: a whole number with too many digits cannot. -/
def Scalar.isShown : Scalar → Bool
  | .int n => n.natAbs < Nat.pow 10 Text.maxDigits
  | _ => true

def Key.isShown : Key → Bool
  | .scalar s => s.isShown
  | .row items => items.all Scalar.isShown

namespace Value

mutual

/-- Whether a value can be shown, with all of its parts. -/
def isShown : Value → Bool
  | .scalar s => s.isShown
  | .list items => areShown items
  | .map entries => entriesShown entries

def areShown : List Value → Bool
  | [] => true
  | item :: items => item.isShown && areShown items

def entriesShown : List (Key × Value) → Bool
  | [] => true
  | (key, value) :: entries => key.isShown && value.isShown && entriesShown entries

end

end Value

namespace Outer

/-- The text of a value, if it can be shown. -/
def textOf (value : Value) : Except Exception String :=
  if value.isShown then .ok value.asText else .error (.value (Text.tooManyDigitsMessage ""))

/-! ## 2. The platform -/

def nesting : Nat := 1000000

/-- What a schema is loaded with, where files stand under their paths. -/
def loader (entryAt : String → Entry) : Loader where
  entryAt
  load cs := (Yaml.read cs).mapError Yaml.LoadError.raised
  textOf := textOf
  check := Fields.check

def platform (entryAt : String → Entry) : Command.Platform (List String) String where
  toLoader := loader entryAt
  nesting _ := nesting
  write data := .ok (Yaml.write data)
  read codes := readLine { entryAt, codes }
  usageText why := Verb.usageError (some .resolve) (.found why)
  feed input := { lines := (Text.fileLines input.toList).map String.ofList }
  refuses _ := none

end Outer

end Sigil

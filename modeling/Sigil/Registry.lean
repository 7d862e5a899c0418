import Sigil.Entries
import Sigil.Value.Display

/-!
# Registries of definitions

A registry maps names to definition texts, which are kept unread. It is built from sources: rows
that should each hold a name and a text. Sources are put on top of each other, a later text for a
name taking the place of an earlier one, and nothing is ever removed. The effective registry of a
program is made of four layers: the built-in definitions, a schema, the inline definitions and the
user types of a document.
-/

namespace Sigil

/-- Names with their texts, in order of first mention. -/
structure Registry where
  entries : List (String × String)
  distinct : (entries.map Prod.fst).Nodup

/-- What a registry is made from: rows of unchecked values. -/
abbrev Source := List (List Value)

/-- Why a row is not a definition. -/
inductive SourceError where
  /-- Name and text are not both texts. -/
  | notTexts (name text : Value)
  | tooFew (count : Nat)
  | tooMany

def SourceError.message : SourceError → String
  | .notTexts name text =>
    "Registry entries must be (str, str) pairs, got (" ++ name.display ++ ", " ++
      text.display ++ ")"
  | .tooFew count => "not enough values to unpack (expected 2, got " ++ toString count ++ ")"
  | .tooMany => "too many values to unpack (expected 2)"

namespace Source

/-- The definition that a row holds. -/
def definition : List Value → Except SourceError (String × String)
  | [.scalar (.string name), .scalar (.string text)] => .ok (name, text)
  | [name, text] => .error (.notTexts name text)
  | row => if row.length < 2 then .error (.tooFew row.length) else .error .tooMany

/-- The definitions of a source; the first bad row is the error. -/
def definitions : Source → Except SourceError (List (String × String))
  | [] => .ok []
  | row :: rows => do
    let pair ← definition row
    let pairs ← definitions rows
    return pair :: pairs

def ofPairs (pairs : List (String × String)) : Source :=
  pairs.map fun pair => [.string pair.1, .string pair.2]

end Source

namespace Registry

/-! ## 1. Building -/

def empty : Registry := ⟨[], List.nodup_nil⟩

/-- The registry with these definitions on top. -/
def putAll (r : Registry) (pairs : List (String × String)) : Registry :=
  ⟨Entries.putAll pairs r.entries, Entries.nodup_putAll pairs r.distinct⟩

/-- The registry with a source on top. -/
def overlay (r : Registry) (source : Source) : Except SourceError Registry := do
  return r.putAll (← source.definitions)

def ofSource (source : Source) : Except SourceError Registry := empty.overlay source

def toSource (r : Registry) : Source := Source.ofPairs r.entries

/-- The registry of one source with another on top. -/
def ofTwo (base top : Source) : Except SourceError Registry := do (← ofSource base).overlay top

/-- The four sources of the effective registry, from the bottom to the top. -/
structure Layers where
  builtins : Source
  schema : Source := []
  inline : Source := []
  userTypes : Source := []

/-- The effective registry. -/
def ofLayers (layers : Layers) : Except SourceError Registry := do
  let r ← ofSource layers.builtins
  let r ← r.overlay layers.schema
  let r ← r.overlay layers.inline
  r.overlay layers.userTypes

/-- The definitions that every effective registry starts from: the least value of each primitive
    type, and existence for the type of everything. -/
def builtins : List (String × String) :=
  [("null", "null"), ("bool", "false"), ("int", "0"), ("float", "0"), ("number", "0"),
   ("string", "\"\""), ("any", "?")]

/-! ## 2. Reading -/

def find? (r : Registry) (name : String) : Option String := Entries.find? name r.entries

def contains (r : Registry) (name : String) : Bool := (r.find? name).isSome

/-- The names in order of first mention. -/
def names (r : Registry) : List String := r.entries.map Prod.fst

def size (r : Registry) : Nat := r.entries.length

/-- Equality whatever the order: the same names with the same texts. -/
def same (a b : Registry) : Bool :=
  a.size == b.size && a.entries.all fun entry => b.find? entry.1 == some entry.2

/-- A registry as a message shows it. -/
def display (r : Registry) : String :=
  let shown := r.entries.map fun entry => Text.display entry.1 ++ ": " ++ Text.display entry.2
  "Registry(\x7b" ++ ", ".intercalate shown ++ "\x7d)"

end Registry

end Sigil

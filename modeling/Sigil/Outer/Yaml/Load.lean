import Sigil.Entries
import Sigil.Exception
import Sigil.Text.Integer
import Sigil.Value.Display
import Sigil.Outer.Yaml.Node
import Sigil.Outer.Yaml.Plain

/-!
# Values of nodes

A node is loaded as a value: a scalar by its tag, or if it has none by its spelling, a list as a
list, and a map as a map. No key may come twice; a map that other maps are merged into takes their
entries first and its own after them, and may repeat them.

Collections are loaded level by level, the members of one before those of its parts. So of several
faults the one that stands highest is reported, and of those the first.
-/

namespace Sigil.Yaml

inductive LoadError where
  /-- Not a well formed file of a single document whose keys differ and whose tags are known. -/
  | malformed
  /-- A scalar that is spelled right but has no value. -/
  | badScalar (why : BadScalar)
  /-- A scalar tagged as an integer that does not read as one. -/
  | badInteger (base : Nat) (digits : String)
  /-- A scalar tagged as a floating number that does not read as one. -/
  | badFloat (digits : String)
  /-- A scalar tagged as a number that has no characters but underscores. -/
  | noCharacter
  | badBool (text : String)
  /-- A row that is a key and holds a collection. -/
  | keyHolds (collection : String)
  deriving DecidableEq, Repr

/-- A fault, and how many levels below its node it was found. -/
abbrev Found := Nat × LoadError

/-- The fault that is reported: the highest, and of those the first. -/
def report? : List Found → Option LoadError
  | [] => none
  | found :: rest =>
    let best := rest.foldl (fun (best : Found) f => if f.1 < best.1 then f else best) found
    some best.2

/-- An entry of a map, loaded: its key if that can be one, and its value, each with its faults. -/
structure LoadedEntry where
  key : Option Key
  keyFaults : List Found
  value : Value
  valueFaults : List Found

/-- A node, loaded: its value, the faults in it, and the entries if it is a map. A value with faults
    means nothing. -/
structure Loaded where
  value : Value
  faults : List Found
  entries : Option (List LoadedEntry)

/-! ## 1. Scalars -/

def BadScalar.message : BadScalar → String
  | .noInteger base digits =>
    "invalid literal for int() with base " ++ toString base ++ ": " ++ Text.display digits
  | .noFloat digits => "could not convert string to float: " ++ Text.display digits
  | .tooManyDigits count =>
    Text.tooManyDigitsMessage (": value has " ++ toString count ++ " digits")
  | .badYear year => "year " ++ toString year ++ " is out of range"
  | .badMonth => "month must be in 1..12"
  | .badDay => "day is out of range for month"
  | .badHour => "hour must be in 0..23"
  | .badMinute => "minute must be in 0..59"
  | .badSecond => "second must be in 0..59"
  | .badZone => "offset must be strictly between -24 and 24 hours"

def LoadError.message : LoadError → String
  | .malformed => "not well formed"
  | .badScalar why => why.message
  | .badInteger base digits => (BadScalar.noInteger base digits).message
  | .badFloat digits => (BadScalar.noFloat digits).message
  | .noCharacter => "string index out of range"
  | .badBool text => Text.display text
  | .keyHolds collection => "unhashable type: " ++ Text.display collection

def LoadError.raised (e : LoadError) : Exception :=
  match e with
  | .malformed => .yaml e.message
  | .badScalar _ | .badInteger _ _ | .badFloat _ => .value e.message
  | .noCharacter => .index e.message
  | .badBool _ => .key e.message
  | .keyHolds _ => .kind e.message

abbrev LoadedScalar := Except LoadError Scalar

/-- What a plain scalar stands for, as a value. Keys that mean something else are none. -/
def plainScalar (s : String) : LoadedScalar :=
  match plain? s with
  | none => .ok (.string s)
  | some (.scalar v) => .ok v
  | some (.bad why) => .error (.badScalar why)
  | some .merge | some .equals => .error .malformed
  | some .time => .ok (.moment s)

/-- The integer of a scalar that is tagged as one. -/
def taggedInteger (s : String) : LoadedScalar :=
  let cs := ungrouped s.toList
  let (negative, ds) := unsigned cs
  let based (base : Nat) (good : Char → Bool) (ds : List Char) : LoadedScalar :=
    let (again, digits) := unsigned ds
    if !digits.isEmpty && digits.all good then
      match integerOf (negative != again) base digits with
      | .scalar v => .ok v
      | _ => .error .malformed
    else .error (.badInteger base (String.ofList ds))
  if cs.isEmpty then .error .noCharacter
  else match ds with
  | '0' :: 'b' :: ds => based 2 (fun c => c == '0' || c == '1') ds
  | '0' :: 'x' :: ds => based 16 isHexDigit ds
  | '0' :: 'o' :: ds => based 8 (fun c => '0' ≤ c && c ≤ '7') ds
  | ds => match Text.readInt? ds with
    | some n => .ok (.int (if negative then -n else n))
    | none => match Text.digitsOf? (unsigned (Text.trim ds)).2 with
      | some values => .error (.badScalar (.tooManyDigits values.length))
      | none => .error (.badInteger 10 (String.ofList ds))

/-- The words for floating numbers that have no digits, in lower case. -/
def floatWords : List (String × Binary64) :=
  [("inf", .infinity), ("infinity", .infinity), ("nan", .nan)]

/-- A decimal digit of any script as the one of the first script; other characters stay. -/
def plainDigit (c : Char) : Char :=
  ((Text.decimalValue? c).map fun d => Char.ofNat ('0'.toNat + d)).getD c

/-- The floating number of a scalar that is tagged as one. What follows the first sign may have
    blanks around it and a sign of its own. -/
def taggedFloat (s : String) : LoadedScalar :=
  let cs := (ungrouped s.toList).map Char.toLower
  let (negative, text) := unsigned cs
  let bad : LoadedScalar := .error (.badFloat (String.ofList text))
  let (again, ds) := unsigned ((Text.trim text).map plainDigit)
  let signed (negative : Bool) (x : Binary64) : LoadedScalar :=
    .ok (.float (if negative && !x.isNaN then x.neg else x))
  if cs.isEmpty then .error .noCharacter
  else if text = ".inf".toList then signed negative .infinity
  else if text = ".nan".toList then signed negative .nan
  else match Entries.find? (String.ofList ds) floatWords with
  | some x => signed (negative != again) x
  | none =>
    let whole := ds.takeWhile Text.isDigit
    let rest := ds.drop whole.length
    let fraction := match rest with
      | '.' :: rest => rest.takeWhile Text.isDigit
      | _ => []
    let tail := if rest.head? == some '.' then rest.drop (fraction.length + 1) else rest
    match if tail.isEmpty then some 0 else exponent? false tail with
    | some power =>
      if whole.isEmpty && fraction.isEmpty then bad
      else match floatOf (negative != again) whole fraction power with
        | .scalar v => .ok v
        | _ => bad
    | none => bad

/-- The words for truth values of scalars that are tagged as such, in any case. -/
def boolWords : List (String × Bool) :=
  [("yes", true), ("no", false), ("y", true), ("n", false), ("true", true), ("false", false),
   ("on", true), ("off", false)]

def scalarOf (tag : Option (List Char)) (plain : Bool) (s : String) : LoadedScalar :=
  match tag with
  | none => if plain then plainScalar s else .ok (.string s)
  | some tag =>
    if tag.take standardStart.length = standardStart then
      match String.ofList (tag.drop standardStart.length) with
      | "str" => .ok (.string s)
      | "int" => taggedInteger s
      | "float" => taggedFloat s
      | "null" => .ok .null
      | "bool" =>
        match boolWords.find? fun word => word.1 == String.ofList (s.toList.map Char.toLower) with
        | some (_, b) => .ok (.bool b)
        | none => .error (.badBool (String.ofList (s.toList.map Char.toLower)))
      | "timestamp" => match day? s.toList with
        | some (.scalar v) => .ok v
        | some (.bad why) => .error (.badScalar why)
        | some _ => .ok (.moment s)
        | none => .error .malformed
      | _ => .error .malformed
    else .error .malformed

/-! ## 2. Collections -/

/-- Whether a tag is absent or the one of a standard kind. -/
def hasKind (kind : String) (tag : Option (List Char)) : Bool :=
  match tag with
  | none => true
  | some tag => tag == standardStart ++ kind.toList

/-- Faults found one level further down. -/
def below (faults : List Found) : List Found := faults.map fun f => (f.1 + 1, f.2)

/-- Faults found at once, however deep. -/
def atOnce (faults : List Found) : List Found := faults.map fun f => (0, f.2)

/-- What kind of collection a value is, in the words of a message. -/
def collectionName? : Value → Option String
  | .scalar _ => none
  | .list _ => some "list"
  | .map _ => some "dict"

/-- The scalars of a row, or the first collection in it. -/
def rowOf : List Value → Except LoadError (List Scalar)
  | [] => .ok []
  | .scalar s :: rest => do return s :: (← rowOf rest)
  | value :: _ => .error (.keyHolds ((collectionName? value).getD ""))

/-- The key of a loaded node, with its faults. A map is no key, and a row that holds a collection is
    one only until it is compared. -/
def keyOf (key : Loaded) : Option Key × List Found × List Found :=
  let faults := atOnce key.faults
  match key.value with
  | .scalar s => (some (.scalar s), faults, [])
  | .list items => match rowOf items with
    | .ok row => (some (.row row), faults, [])
    | .error e => (none, faults, [(0, e)])
  | .map _ => (none, faults ++ [(0, .malformed)], [])

/-- The value of a loaded node within a collection, with its faults. -/
def partFaults (part : Loaded) : List Found :=
  match part.value with
  | .scalar _ => part.faults
  | _ => below part.faults

/-- The entries of a map in order: a key that is there takes the new value. -/
def putEntry (key : Key) (value : Value) : List (Key × Value) → List (Key × Value)
  | [] => [(key, value)]
  | (k, v) :: rest => if k.same key then (k, value) :: rest else (k, v) :: putEntry key value rest

/-- The faults of entries in order, with those of keys that come twice if that is not allowed. -/
def entryFaults (unique : Bool) (seen : List Key) : List LoadedEntry → List Found
  | [] => []
  | entry :: rest =>
    let faults := entry.keyFaults ++ entry.valueFaults
    match entry.key with
    | none => faults ++ entryFaults unique seen rest
    | some key =>
      let twice := if unique && seen.any key.same then [(0, LoadError.malformed)] else []
      faults ++ twice ++ entryFaults unique (key :: seen) rest

/-- A map of entries, after the entries that are merged into it. -/
def mapOf (merged : List LoadedEntry) (early : List Found) (own : List LoadedEntry) : Loaded :=
  let all := merged ++ own
  let value := all.foldl (fun entries entry => match entry.key with
    | some key => putEntry key entry.value entries
    | none => entries) []
  ⟨.map value, early ++ entryFaults merged.isEmpty [] all, some all⟩

/-- Whether a key node merges other maps in. -/
def isMerge : Node → Bool
  | .scalar none true text => plain? text == some .merge
  | .scalar (some tag) _ _ => tag == standardStart ++ "merge".toList
  | _ => false

/-- Whether a key node is an equals sign, which is a text there. -/
def isEquals : Node → Bool
  | .scalar none true text => plain? text == some .equals
  | _ => false

/-- The entries that a loaded value merges in: those of a map, or those of several, the last one
    first. -/
def mergedBy (value : Loaded) (parts : List Loaded) : Except LoadError (List LoadedEntry) :=
  match value.entries with
  | some entries => .ok entries
  | none => match value.value with
    | .list _ =>
      if parts.all fun part => part.entries.isSome then
        .ok (parts.reverse.flatMap fun part => part.entries.getD [])
      else .error .malformed
    | _ => .error .malformed

/-- The own entries of a map, what is merged into it, and the faults of merging. -/
structure Split where
  own : List LoadedEntry
  merged : List LoadedEntry
  faults : List Found

mutual

def load : Node → Loaded
  | .scalar tag plain text => match scalarOf tag plain text with
    | .ok s => ⟨.scalar s, [], none⟩
    | .error e => ⟨.null, [(0, e)], none⟩
  | .list tag items =>
    if hasKind "seq" tag then
      let parts := loadItems items
      ⟨.list (parts.map Loaded.value), parts.flatMap partFaults, none⟩
    else ⟨.null, [(0, .malformed)], none⟩
  | .map tag entries =>
    if hasKind "map" tag then
      let split := loadEntries entries
      mapOf split.merged split.faults split.own
    else ⟨.null, [(0, .malformed)], none⟩

def loadItems : List Node → List Loaded
  | [] => []
  | item :: items => load item :: loadItems items

def loadParts : Node → List Loaded
  | .list _ items => loadItems items
  | _ => []

/-- The entries, loaded and split. Only one key may merge maps in. -/
def loadEntries : List (Node × Node) → Split
  | [] => ⟨[], [], []⟩
  | (key, value) :: entries =>
    let rest := loadEntries entries
    let loaded := load value
    if isMerge key then
      match mergedBy loaded (loadParts value) with
      | .error e => { rest with faults := (0, e) :: rest.faults }
      | .ok merged =>
        if merged.isEmpty then rest
        else if rest.merged.isEmpty then { rest with merged }
        else { rest with faults := (0, .malformed) :: rest.faults }
    else
      let found := if isEquals key then ⟨.string "=", [], none⟩ else load key
      let (key?, faults, late) := keyOf found
      { rest with own := ⟨key?, faults, loaded.value, partFaults loaded ++ late⟩ :: rest.own }

end

/-! ## 3. Files -/

/-- The value of a file; an empty one has the value null. -/
def read (cs : List Char) : Except LoadError Value :=
  match (tokens? cs).bind Node.ofTokens? with
  | none => .error .malformed
  | some none => .ok .null
  | some (some whole) =>
    let loaded := load whole
    match report? loaded.faults with
    | some e => .error e
    | none => .ok loaded.value

end Sigil.Yaml

import Sigil.Schema.Load

/-!
# Fields of records

Unchecked values are checked field by field, and all faults are reported together. So are the fields
of a schema: `Fields.check` is the check that the program is supplied with.
-/

namespace Sigil

/-- A value or all faults found in it. -/
abbrev Checked (α : Type) := Except (List FieldFault) α

namespace Checked

variable {α β : Type}

/-- The faults found, none if there is a value. -/
def faults : Checked α → List FieldFault
  | .ok _ => []
  | .error fs => fs

def both : Checked α → Checked β → Checked (α × β)
  | .ok a, .ok b => .ok (a, b)
  | a, b => .error (a.faults ++ b.faults)

theorem both_eq_ok_iff {a : Checked α} {b : Checked β} {x : α} {y : β} :
    a.both b = .ok (x, y) ↔ a = .ok x ∧ b = .ok y := by
  cases a <;> cases b <;> simp [both]

/-- No fault of either is lost. -/
theorem faults_both (a : Checked α) (b : Checked β) : (a.both b).faults = a.faults ++ b.faults := by
  cases a <;> cases b <;> rfl

def all : List (Checked α) → Checked (List α)
  | [] => .ok []
  | a :: as => (a.both (all as)).map fun pair => pair.1 :: pair.2

theorem faults_map (f : α → β) (a : Checked α) : Checked.faults (a.map f) = a.faults := by
  cases a <;> rfl

/-- The faults of all are those of each, in order. -/
theorem faults_all (as : List (Checked α)) : (all as).faults = as.flatMap faults := by
  induction as with
  | nil => rfl
  | cons a as ih => rw [all, faults_map, faults_both, ih, List.flatMap_cons]

/-- A single fault at a single field. -/
def fault (path : List String) (f : Fault) : Checked α := .error [⟨path, f⟩]

/-- Refuses fields that are not known, at the path of the record that they are in. -/
def knownOnly (path known : List String) (fields : List (String × Value)) : Checked Unit :=
  let unknown := (fields.map Prod.fst).filter fun name => !known.contains name
  let kind := if path.isEmpty then Fault.unknownField else .unknownPart
  if unknown.isEmpty then .ok () else .error (unknown.map fun name => ⟨path ++ [name], kind⟩)

end Checked

/-! ## Schemas -/

namespace Fields

/-- How the place of an entry names its key. -/
def placeOf : Key → String
  | .scalar (.string s) => s
  | .scalar (.bool b) => if b then "1" else "0"
  | key => key.display

/-- The name and the text of an entry, both of which have to be texts. -/
def textEntry (entry : Key × Value) : Checked (String × String) :=
  let place := ["definitions", placeOf entry.1]
  let name : Checked String := match entry.1 with
    | .scalar (.string s) => .ok s
    | _ => .fault (place ++ ["[key]"]) .notText
  let text : Checked String := match entry.2 with
    | .scalar (.string s) => .ok s
    | _ => .fault place .notText
  name.both text

/-- What a validator of the definitions makes of them. What it does not accept is a fault of theirs;
    other exceptions are not looked at. -/
def validated {α : Type} : Except Exception α → Except Exception (Checked α)
  | .ok a => .ok (.ok a)
  | .error (.value why) => .ok (.fault ["definitions"] (.refused why))
  | .error e => .error e

/-- A map of texts to texts. -/
def textsOf : Value → Checked (List (String × String))
  | .map entries => Checked.all (entries.map textEntry)
  | _ => .fault ["definitions"] .notMap

/-- The definitions of a field, with what is done before and after they are found to be texts. -/
def definitionsOf (before : Value → Except Exception Value)
    (after : List (String × String) → Except Exception (List (String × String))) (value : Value) :
    Except Exception (Checked (List (String × String))) := do
  match ← validated (before value) with
  | .error faults => return .error faults
  | .ok value => match textsOf value with
    | .error faults => return .error faults
    | .ok texts => validated (after (Entries.putAll texts []))

/-- The definitions of some fields, none without the field. -/
def definitionsIn (before : Value → Except Exception Value)
    (after : List (String × String) → Except Exception (List (String × String)))
    (fields : List (String × Value)) : Except Exception (Checked (List (String × String))) :=
  match Entries.find? "definitions" fields with
  | some value => definitionsOf before after value
  | none => .ok (.ok [])

/-- The version of a field, which has to be there. -/
def versionOf : Option Value → Checked String
  | some (.scalar (.string s)) => .ok s
  | some _ => .fault ["version"] .notText
  | none => .fault ["version"] .missingField

/-- The schema that some fields make. -/
def check : FieldCheck := fun before after fields => do
  let definitions ← definitionsIn before after fields
  let version := versionOf (Entries.find? "version" fields)
  let known := Checked.knownOnly [] ["version", "definitions"] fields
  match version.both (definitions.both known) with
  | .ok (version, definitions, _) => return { version, definitions }
  | .error faults => .error (.fields faults (toString faults.length ++ " faults"))

end Fields

end Sigil

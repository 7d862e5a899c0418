import Sigil.Outer.Fields
import Sigil.Resolve.Settings

/-!
# Settings from unchecked fields

The settings of a resolution may come as a map of unchecked values. Every field may be left out, no
other field is known, and all faults are reported together. The budget may come as a whole number,
as a floating one without a fraction, as a truth value, or as a text.
-/

namespace Sigil.Settings

/-- The field of that name, read if it is there. -/
def field {α : Type} (name : String) (absent : α) (read : Value → Checked α)
    (fields : List (String × Value)) : Checked α :=
  match Entries.find? name fields with
  | some value => read value
  | none => .ok absent

/-- One of some words. -/
def word {α : Type} (name : String) (words : List (String × α)) (value : Value) : Checked α :=
  match value with
  | .scalar (.string s) => match Entries.find? s words with
    | some a => .ok a
    | none => .fault [name] .notAllowed
  | _ => .fault [name] .notAllowed

def modeWords : List (String × Mode) := [("flat", .flat), ("deep", .deep)]

/-- The words for what to do when the budget runs out. -/
def exhaustionWords : List (String × Exhaustion) := [("partial", .keep), ("fail", .fail)]

/-- The text of a whole number without its zeros after a point. -/
def withoutZeroFraction (cs : List Char) : List Char :=
  let whole := cs.takeWhile (· != '.')
  if (cs.drop (whole.length + 1)).all (· == '0') then whole else cs

/-- The whole number of an option in words: decimal digits of the basic script, with an optional
    sign and blanks around. -/
def spelledInt? (s : String) : Option Int :=
  let cs := Text.trim s.toList
  if cs.all fun c => c.toNat < 0x80 then Text.readInt? (withoutZeroFraction cs) else none

def wholeNumber (name : String) : Value → Checked Int
  | .scalar (.int n) => .ok n
  | .scalar (.bool b) => .ok (if b then 1 else 0)
  | .scalar (.float x) => match x.toInt? with
    | some n => .ok n
    | none => .fault [name] .notWhole
  | .scalar (.string s) => match spelledInt? s with
    | some n => .ok n
    | none => .fault [name] .notSpelled
  | _ => .fault [name] .notNumber

/-- The budget of a whole number. -/
def budgetOf (name : String) (n : Int) : Checked Budget :=
  match Budget.ofNat? n.toNat with
  | some budget => .ok budget
  | none => .fault [name] (if n < 1 then .tooSmall else .tooLarge)

def textSet (path : List String) : Value → Checked (List String)
  | .list items => Checked.all (items.zipIdx.map fun (item, i) => match item with
    | .scalar (.string s) => .ok s
    | _ => .fault (path ++ [toString i]) .notText)
  | _ => .fault path .notSet

/-- The entries of a map whose keys are texts, the other keys as texts too. -/
def namedEntries (entries : List (Key × Value)) : List (String × Value) :=
  entries.map fun entry => (entry.1.asText, entry.2)

/-- A policy, or none. -/
def policyOf (name : String) : Value → Checked (Option Policy)
  | .scalar .null => .ok none
  | .map entries =>
    let fields := namedEntries entries
    let set (key : String) := field key [] (textSet [name, key]) fields
    ((set "warn_as_error").both ((set "suppress").both
      (Checked.knownOnly [name] ["warn_as_error", "suppress"] fields))).map
        fun (escalated, suppressed, _) => some ⟨escalated, suppressed⟩
  | _ => .fault [name] .notRecord

/-- The settings that some fields make. -/
def ofFields (fields : List (String × Value)) : Checked Settings :=
  let mode := field "mode" .deep (word "mode" modeWords) fields
  let budget := field "max_passes" .standard
    (fun value => wholeNumber "max_passes" value >>= budgetOf "max_passes") fields
  let exhaustion :=
    field "on_budget_exhausted" .keep (word "on_budget_exhausted" exhaustionWords) fields
  let policy := field "warning_policy" none (policyOf "warning_policy") fields
  let known := ["mode", "max_passes", "on_budget_exhausted", "warning_policy"]
  (mode.both (budget.both (exhaustion.both (policy.both (Checked.knownOnly [] known fields))))).map
    fun (mode, budget, exhaustion, policy, _) => { mode, budget, exhaustion, policy }

end Sigil.Settings

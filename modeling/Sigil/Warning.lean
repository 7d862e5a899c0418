import Sigil.Entries
import Sigil.Expr.Tagged
import Sigil.Text.Blank
import Sigil.Text.Lines
import Sigil.Value.Display

/-!
# Warnings

Two things are worth a warning while an expression is resolved: the budget of expansions ran out,
and a name came up again inside its own expansion. Each kind has a code, and a policy may suppress a
code or turn it into an error; to suppress wins over to escalate.
-/

namespace Sigil

/-! ## 1. Codes -/

inductive Code where
  | budget
  | cycle
  deriving DecidableEq, Repr

namespace Code

def all : List Code := [.budget, .cycle]

def name : Code → String
  | .budget => "W01"
  | .cycle => "W02"

/-- The code that is written so. -/
def ofName? (s : String) : Option Code := all.find? fun code => code.name == s

theorem ofName?_name (code : Code) : ofName? code.name = some code := by
  cases code <;> decide

/-- The least of some texts in the order of their characters. -/
def leastText : List String → Option String
  | [] => none
  | s :: rest => match leastText rest with
    | none => some s
    | some t => some (if t < s then t else s)

/-- The codes in a list written with commas, in order and without repetition. Blanks around a code
    and empty places do not count; the least text that is no code is the error. -/
def ofList (raw : String) : Except String (List Code) :=
  let words := (Text.pieces ',' raw.toList).map fun piece => String.ofList (Text.trim piece)
  let written := words.filter fun word => word != ""
  match leastText (written.filter fun word => (ofName? word).isNone) with
  | some word => .error word
  | none => .ok (all.filter fun code => written.contains code.name)

/-- The text of the error about a word that is no code. -/
def unknownMessage (word : String) : String :=
  "Unknown warning code: " ++ Text.display word

/-- The text of the error about a word that is no code, in a list. -/
def unknownInListMessage (word : String) : String :=
  unknownMessage word ++ " (known: [" ++
    ", ".intercalate (all.map fun code => Text.display code.name)
    ++ "])"

end Code

/-! ## 2. Policies -/

/-- The codes to escalate and the codes to suppress, as they are written. -/
structure Policy where
  escalated : List String := []
  suppressed : List String := []
  deriving Repr

/-- What becomes of a warning. -/
inductive Verdict where
  | drop
  | raise
  | report
  deriving DecidableEq, Repr

/-- What a policy does with a code. -/
def Policy.verdict (policy : Policy) (code : Code) : Verdict :=
  if policy.suppressed.contains code.name then .drop
  else if policy.escalated.contains code.name then .raise
  else .report

/-- What becomes of a code under a policy; without one, warnings are reported. -/
def Policy.verdictUnder (policy : Option Policy) (code : Code) : Verdict :=
  match policy with
  | some policy => policy.verdict code
  | none => .report

/-! ## 3. Messages -/

namespace Code

/-- The message about a budget that ran out, from its size and the result as texts. -/
def budgetMessage (passes result : String) : String :=
  "Pass budget of " ++ passes ++ " exhausted; returning partial result " ++ result

/-- The message about a cycle, from the name as shown. -/
def cycleMessage (name : String) : String :=
  "Reference cycle through " ++ name ++ "; left unexpanded"

/-- The message of a code from named values; the first name that is missing is the error. -/
def fill (code : Code) (context : List (String × Value)) : Except String String :=
  let value (name : String) : Except String Value :=
    match Entries.find? name context with
    | some v => .ok v
    | none => .error name
  match code with
  | .budget => do return budgetMessage (← value "max_passes").asText (← value "result").asText
  | .cycle => do return cycleMessage (← value "name").display

end Code

/-- A message with its code in front. -/
def Code.label (code : Code) (message : String) : String := "[" ++ code.name ++ "] " ++ message

/-! ## 4. Warnings of resolution -/

inductive Warning where
  /-- The budget ran out, and this is the result so far. -/
  | budget (passes : Nat) (result : Expr)
  /-- The name came up inside its own expansion. -/
  | cycle (name : String)

namespace Warning

def code : Warning → Code
  | .budget _ _ => .budget
  | .cycle _ => .cycle

/-- A warning in words. -/
def message : Warning → String
  | .budget passes result => Code.budgetMessage (toString passes) result.tagged
  | .cycle name => Code.cycleMessage (Text.display name)

end Warning

/-- A warning as it is shown. -/
def Warning.text (w : Warning) : String := w.code.label w.message

/-! ## 5. Warnings from named values -/

/-- Why a warning is not emitted. -/
inductive EmitError where
  | unknownCode (code : String)
  | missingValue (name : String)
  | escalated (code : Code) (text : String)
  deriving DecidableEq, Repr

def EmitError.message : EmitError → String
  | .unknownCode code => Code.unknownMessage code
  | .missingValue name => Text.display name
  | .escalated _ text => text

/-- What becomes of a warning with this code and these values: its text if it is reported. A code
    that is suppressed needs no values, one that is escalated does. -/
def Code.emit (policy : Option Policy) (code : String) (context : List (String × Value)) :
    Except EmitError (Option (Code × String)) :=
  match ofName? code with
  | none => .error (.unknownCode code)
  | some known =>
    match Policy.verdictUnder policy known with
    | .drop => .ok none
    | verdict => match known.fill context with
      | .error name => .error (.missingValue name)
      | .ok message =>
        if verdict = .raise then .error (.escalated known (known.label message))
        else .ok (some (known, known.label message))

end Sigil

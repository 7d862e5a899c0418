import Sigil.Command.Platform
import Sigil.Outer.Settings
import Sigil.Outer.Usage

/-!
# Values of options

The values of the options of a line, read by what each option takes: one of some words, a number, a
list of codes, or a file, which has to be there. Options are looked at in the order in which they
were first given, each with the value given last, and the first bad value is the fault.
-/

namespace Sigil.Outer

open Command (Choices Format Call)
open Verb (UsageFault)

/-! ## 1. Values -/

def formatWords : List (String × Format) := [("tagged", .tagged), ("yaml", .yaml)]

/-- What some options choose, and whether a check is asked for. -/
structure Given where
  choices : Choices := {}
  check : Bool := false

/-- One of some words. -/
def wordOf {α : Type} (words : List (String × α)) (value : String) : Except String α :=
  match Entries.find? value words with
  | some a => .ok a
  | none =>
    let known := ", ".intercalate (words.map fun word => Text.display word.1)
    .error (Text.display value ++ " is not one of " ++ known ++ ".")

def budgetOf (value : String) : Except String Budget :=
  match Text.readInt? value.toList with
  | none => .error (Text.display value ++ " is not a valid integer range.")
  | some n => match Budget.ofNat? n.toNat with
    | some budget => .ok budget
    | none =>
      .error (toString n ++ " is not in the range 1<=x<=" ++ toString maxBudget ++ ".")

/-- The path of a file that is there. -/
def fileOf (entryAt : String → Entry) (path : String) : Except String String :=
  match entryAt path with
  | .file _ => .ok path
  | .locked => .error ("File " ++ Text.display path ++ " is not readable.")
  | .directory => .error ("File " ++ Text.display path ++ " is a directory.")
  | .absent | .blocked => .error ("File " ++ Text.display path ++ " does not exist.")

/-! ## 2. Options -/

/-- What the files of a line are found with, and what is done with an option for a list of codes. -/
structure Values where
  entryAt : String → Entry
  codes : String → Except String (List Code)

namespace Given

/-- What is given with the value of one more option, or why it is a bad one. -/
def choose (values : Values) (given : Given) (setting : Setting) (value : String) :
    Except String Given :=
  let choices := given.choices
  match setting with
  | .format => do
    return { given with choices := { choices with format := ← wordOf formatWords value } }
  | .file => do
    return { given with choices :=
      { choices with document := some (← fileOf values.entryAt value) } }
  | .schema => do
    return { given with choices := { choices with schema := some (← fileOf values.entryAt value) } }
  | .mode => do
    return { given with choices := { choices with mode := ← wordOf Settings.modeWords value } }
  | .maxPasses => do
    return { given with choices := { choices with budget := ← budgetOf value } }
  | .onBudget => do
    let exhaustion ← wordOf Settings.exhaustionWords value
    return { given with choices := { choices with exhaustion } }
  | .warnAsError => do
    return { given with choices := { choices with escalated := ← values.codes value } }
  | .suppressWarning => do
    return { given with choices := { choices with suppressed := ← values.codes value } }
  | .check => .ok { given with check := true }
  | .help | .version => .ok given

/-- What is given after some options in turn. -/
def chooseAll (values : Values) (given : Given) : List (Setting × String) → Except UsageFault Given
  | [] => .ok given
  | (setting, value) :: rest => match given.choose values setting value with
    | .ok next => next.chooseAll values rest
    | .error why => .error (.badValue setting why)

/-- What the options of a line give. -/
def ofOptions (values : Values) (options : List (Setting × String)) : Except UsageFault Given :=
  chooseAll values {} (Entries.putAll options [])

end Given

/-- The call of a command with these options and the other arguments of its line. -/
def callOf (command : Verb) (given : Given) (others : List String) : Except UsageFault Call :=
  match command, others with
  | .repl, [] => .ok (.repl given.choices)
  | .resolve, [] => .ok (.resolve none given.choices)
  | _, [] => .error .expressionMissing
  | .parse, [text] => .ok (.parse text given.choices.format)
  | .resolve, [text] => .ok (.resolve (some text) given.choices)
  | .fmt, [text] => .ok (.fmt text given.check)
  | .repl, rest => .error (.tooMany rest)
  | _, _ :: rest => .error (.tooMany rest)

/-! ## 3. Lines -/

def misuse (command : Option Verb) (fault : UsageFault) : Command.Reading :=
  .misuse (Verb.usageError command fault)

/-- What the arguments after a command are read as. -/
def readAfter (values : Values) (command : Verb) (args : List String) : Command.Reading :=
  let read : Except UsageFault Command.Reading := do
    let given ← (Arguments.read command.settings true args).mapError .form
    if given.options.any fun option => option.1 == .help then
      return .shown (Verb.usage (some command))
    return .call (← callOf command (← Given.ofOptions values given.options) given.others)
  match read with
  | .ok reading => reading
  | .error fault => misuse (some command) fault

/-- What the options in front of the command are answered with. -/
def outerAnswer? (options : List (Setting × String)) : Option String :=
  match options with
  | (.version, _) :: _ => some (Verb.program ++ ", version " ++ Verb.version ++ "\n")
  | _ :: _ => some (Verb.usage none)
  | [] => none

/-- Whether a word would be taken for an option, if options could still come. -/
def looksLikeOption (word : String) : Bool := isOption word && word != "--"

/-- What is read after the options in front of the command. A word that is no command but looks like
    an option is read as one after all. -/
def readCommand (values : Values) : List String → Except UsageFault Command.Reading
  | [] => .error .commandMissing
  | word :: args => match Verb.ofWord? word with
    | some command => .ok (readAfter values command args)
    | none => do
      if looksLikeOption word then
        let given ← (Arguments.read Verb.outerSettings false (word :: args)).mapError .form
        if let some text := outerAnswer? given.options then return .shown text
      .error (.unknownCommand word)

def readLine (values : Values) (args : List String) : Command.Reading :=
  if args.isEmpty then .misuse (Verb.usage none)
  else
    let read : Except UsageFault Command.Reading := do
      let given ← (Arguments.read Verb.outerSettings false args).mapError .form
      match outerAnswer? given.options with
      | some text => return .shown text
      | none => readCommand values given.others
    match read with
    | .ok reading => reading
    | .error fault => misuse none fault

/-- The paths of the files that the options of a command line ask for. -/
def paths (args : List String) : List String :=
  let asked : Except ArgumentFault (List String) := do
    let outer ← Arguments.read Verb.outerSettings false args
    match outer.others with
    | [] => return []
    | word :: args => match Verb.ofWord? word with
      | none => return []
      | some command =>
        let given ← Arguments.read command.settings true args
        return (Entries.putAll given.options []).filterMap fun (setting, value) =>
          if setting = .file ∨ setting = .schema then some value else none
  match asked with
  | .ok paths => paths
  | .error _ => []

end Sigil.Outer

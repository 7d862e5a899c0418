import Sigil.Text.Display

/-!
# Arguments of a command line

A command line is a list of arguments. An argument that starts with a dash is an option: by its
long name, with a value after an equals sign or in the next argument, or by its letter, with a
value right behind or in the next argument. A dash alone is an ordinary argument, and two dashes
end the options. `Arguments.read` sorts the arguments of a line by these rules and knows nothing
of what the values mean.
-/

namespace Sigil.Outer

/-! ## 1. Options -/

inductive Setting where
  | format
  | file
  | schema
  | mode
  | maxPasses
  | onBudget
  | warnAsError
  | suppressWarning
  | check
  | help
  | version
  deriving DecidableEq, Repr

namespace Setting

def name : Setting → String
  | .format => "--format"
  | .file => "--file"
  | .schema => "--schema"
  | .mode => "--mode"
  | .maxPasses => "--max-passes"
  | .onBudget => "--on-budget"
  | .warnAsError => "--warn-as-error"
  | .suppressWarning => "--suppress-warning"
  | .check => "--check"
  | .help => "--help"
  | .version => "--version"

/-- The letter, of those that have one. -/
def letter? : Setting → Option Char
  | .file => some 'f'
  | .schema => some 's'
  | _ => none

/-- Whether a value belongs to it. -/
def takesValue : Setting → Bool
  | .check | .help | .version => false
  | _ => true

end Setting

/-! ## 2. Faults of form -/

/-- Why a list of arguments cannot be sorted. -/
inductive ArgumentFault where
  | unknownOption (written : String)
  | valueMissing (written : String)
  /-- A value at an option that takes none. -/
  | valueUnwanted (written : String)
  deriving DecidableEq, Repr

def ArgumentFault.message : ArgumentFault → String
  | .unknownOption written => "No such option " ++ Text.display written ++ "."
  | .valueMissing written => "Option " ++ Text.display written ++ " requires an argument."
  | .valueUnwanted written => "Option " ++ Text.display written ++ " does not take a value."

/-! ## 3. Reading -/

/-- An option as one argument gives it: how it is written, and the value that comes with it. -/
structure WrittenOption where
  setting : Setting
  written : String
  value : Option String
  deriving DecidableEq, Repr

/-- Whether an argument is an option. -/
def isOption (arg : String) : Bool :=
  match arg.toList with
  | '-' :: _ :: _ => true
  | _ => false

/-- The option that an argument is, among some that are known. -/
def writtenOption (known : List Setting) (arg : String) : Except ArgumentFault WrittenOption :=
  let cs := arg.toList
  let long := cs.takeWhile (· != '=')
  let value := if long.length < cs.length then some (String.ofList (cs.drop (long.length + 1)))
    else none
  match known.find? fun s => s.name.toList == long with
  | some setting => .ok { setting, written := setting.name, value }
  | none => match cs with
    | '-' :: '-' :: _ => .error (.unknownOption (String.ofList long))
    | _ :: letter :: rest =>
      let written := String.ofList ['-', letter]
      match known.find? fun s => s.letter? == some letter with
      | some setting =>
        .ok { setting, written, value := if rest.isEmpty then none else some (String.ofList rest) }
      | none => .error (.unknownOption written)
    | _ => .error (.unknownOption arg)

/-- The arguments of a line, sorted: the options with their values, and the others. Each are in the
    order in which they came, and the value of an option that takes none is empty. -/
structure Arguments where
  options : List (Setting × String) := []
  others : List String := []
  deriving DecidableEq, Repr

namespace Arguments

/-- The arguments with an option in front. -/
def withOption (setting : Setting) (value : String) (given : Arguments) : Arguments :=
  { given with options := (setting, value) :: given.options }

/-- The arguments with another in front. -/
def withOther (arg : String) (given : Arguments) : Arguments :=
  { given with others := arg :: given.others }

/-- Sorts arguments after an option whose value is `due`, if there is one. Where options are not
    `mixed` with other arguments, the first of those ends them. -/
def readAfter (known : List Setting) (mixed : Bool) (due : Option WrittenOption) :
    List String → Except ArgumentFault Arguments
  | [] => match due with
    | some option => .error (.valueMissing option.written)
    | none => .ok {}
  | arg :: args => match due with
    | some option => do return (← readAfter known mixed none args).withOption option.setting arg
    | none =>
      if arg = "--" then .ok { others := args }
      else if isOption arg then do
        let option ← writtenOption known arg
        match option.value, option.setting.takesValue with
        | none, true => readAfter known mixed (some option) args
        | some value, true =>
          return (← readAfter known mixed none args).withOption option.setting value
        | none, false => return (← readAfter known mixed none args).withOption option.setting ""
        | some _, false => .error (.valueUnwanted option.written)
      else if mixed then do return (← readAfter known mixed none args).withOther arg
      else .ok { others := arg :: args }

/-- Sorts the arguments of a line. -/
def read (known : List Setting) (mixed : Bool) (args : List String) :
    Except ArgumentFault Arguments :=
  readAfter known mixed none args

end Arguments

end Sigil.Outer

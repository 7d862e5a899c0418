import Sigil.Outer.Arguments

/-!
# Commands and their usage

The program has four commands. Each takes options of its own, and all but the interactive one take
an expression. A command line that does not fit is answered with how the command is used and with
the fault; a fault in the form of an option comes without that.
-/

namespace Sigil.Outer

/-- An option by its letter and its name. -/
def Setting.shown (setting : Setting) : String :=
  let long := "'" ++ setting.name ++ "'"
  match setting.letter? with
  | some letter => "'-" ++ String.singleton letter ++ "' / " ++ long
  | none => long

inductive Verb where
  | parse
  | resolve
  | fmt
  | repl
  deriving DecidableEq, Repr

namespace Verb

/-! ## 1. The commands -/

def program : String := "sigil"

def version : String := "0.1.0"

def all : List Verb := [.parse, .resolve, .fmt, .repl]

def word : Verb → String
  | .parse => "parse"
  | .resolve => "resolve"
  | .fmt => "fmt"
  | .repl => "repl"

def ofWord? (s : String) : Option Verb := all.find? fun command => command.word == s

theorem ofWord?_word (command : Verb) : ofWord? command.word = some command := by
  cases command <;> decide

/-- The options in front of a command. -/
def outerSettings : List Setting := [.version, .help]

def settings : Verb → List Setting
  | .parse => [.format, .help]
  | .resolve =>
    [.file, .schema, .mode, .maxPasses, .onBudget, .format, .warnAsError, .suppressWarning, .help]
  | .fmt => [.check, .help]
  | .repl => [.schema, .mode, .warnAsError, .suppressWarning, .help]

/-! ## 2. Faults of usage -/

inductive UsageFault where
  | form (fault : ArgumentFault)
  | badValue (setting : Setting) (why : String)
  | expressionMissing
  | tooMany (args : List String)
  | commandMissing
  | unknownCommand (word : String)
  | found (why : String)
  deriving DecidableEq, Repr

namespace UsageFault

def message : UsageFault → String
  | .form fault => fault.message
  | .badValue setting why => "Invalid value for " ++ setting.shown ++ ": " ++ why
  | .expressionMissing => "Missing argument 'EXPRESSION'."
  | .tooMany args =>
    "Got unexpected extra argument" ++ (if args.length = 1 then "" else "s") ++ " (" ++
      " ".intercalate args ++ ")"
  | .commandMissing => "Missing command."
  | .unknownCommand word => "No such command " ++ Text.display word ++ "."
  | .found why => why

/-- Whether the usage is shown with the fault. -/
def showsUsage : UsageFault → Bool
  | .form (.valueMissing _) | .form (.valueUnwanted _) => false
  | _ => true

end UsageFault

/-! ## 3. Usage -/

/-- The words that call a command, or the program where no command is known. -/
def path : Option Verb → String
  | none => program
  | some command => program ++ " " ++ command.word

/-- What follows those words. -/
def pattern : Option Verb → String
  | none => "[OPTIONS] COMMAND [ARGS]..."
  | some .parse | some .fmt => "[OPTIONS] EXPRESSION"
  | some .resolve => "[OPTIONS] [EXPRESSION]"
  | some .repl => "[OPTIONS]"

/-- The line that tells how a command is used. -/
def usage (command : Option Verb) : String :=
  "Usage: " ++ path command ++ " " ++ pattern command ++ "\n"

def usageError (command : Option Verb) (fault : UsageFault) : String :=
  (if fault.showsUsage then
    usage command ++ "Try '" ++ path command ++ " --help' for help.\n\n"
  else "") ++ "Error: " ++ fault.message ++ "\n"

end Verb

end Sigil.Outer

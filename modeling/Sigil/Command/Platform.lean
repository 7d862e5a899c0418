import Sigil.Command.Run
import Sigil.Data
import Sigil.Resolve.Basic
import Sigil.Schema.Load

/-!
# Calls and platforms

The program has four commands, and a `Call` is one of them with its parameters. Who reads a command
line as a call, what its input gives when lines are asked for, how YAML is written and what the
interpreter bears is not the program's own: that is its `Platform`, and of all this the program only
knows what the types say.
-/

namespace Sigil.Command

/-! ## 1. Calls -/

inductive Format where
  | tagged
  | yaml
  deriving DecidableEq, Repr

/-- All that can be chosen. Files are chosen by their paths. -/
structure Choices where
  format : Format := .tagged
  document : Option String := none
  schema : Option String := none
  mode : Mode := .deep
  budget : Budget := .standard
  exhaustion : Exhaustion := .keep
  escalated : List Code := []
  suppressed : List Code := []

def Choices.policy (choices : Choices) : Policy :=
  ⟨choices.escalated.map Code.name, choices.suppressed.map Code.name⟩

/-- The settings of resolution that were chosen. -/
def Choices.settings (choices : Choices) : Settings :=
  { mode := choices.mode, budget := choices.budget, exhaustion := choices.exhaustion,
    policy := some choices.policy }

/-- A command with its parameters: to show an expression as it is read, to resolve one or that of
    the chosen document, to show or check a tagged form, and to answer lines. -/
inductive Call where
  | parse (text : String) (format : Format)
  | resolve (expression : Option String) (choices : Choices)
  | fmt (text : String) (check : Bool)
  | repl (choices : Choices)

/-- The codes of an option for a list of codes, or why they are none; that is a fault of usage. -/
def codeList (raw : String) : Except String (List Code) :=
  (Code.ofList raw).mapError Code.unknownInListMessage

/-! ## 2. Platforms -/

inductive Reading where
  | call (call : Call)
  | shown (text : String)
  /-- A fault of usage, in the words that are printed about it. -/
  | misuse (text : String)
  | told (message : String)
  | raised (e : Exception)
  /-- Arguments that are no texts of characters. What then comes of them is not told here. -/
  | beyond (report : Report)

/-- How an input ends after its lines: it is over, it raises something, or what follows is no text
    of characters, and what then comes of it is not told here. -/
inductive FeedEnd where
  | eof
  | raised (e : Exception)
  | beyond (rest : Run Unit)

structure Feed where
  lines : List String
  ending : FeedEnd := .eof

/-- A resolution that is to be done. -/
structure Task where
  registry : Registry
  settings : Settings
  expr : Expr

/-- The resolution that is done, with walks that nest at most so deep. -/
def Task.resolution (task : Task) (nesting : Nat) : Resolution :=
  task.expr.resolve nesting task.registry task.settings

/-- What the program is run with, where command lines are of one type and inputs of another. -/
structure Platform (Line Input : Type) extends Loader where
  /-- How deep the walk of a resolution may nest before the interpreter gives up. -/
  nesting : Task → Nat
  write : Data → Except Exception String
  /-- What a command line is read as, given what is done with an option for a list of codes. -/
  read : (codes : String → Except String (List Code)) → Line → Reading
  /-- What is printed about a fault of usage that a command finds. -/
  usageText : String → String
  /-- What an input gives when lines are asked for. -/
  feed : Input → Feed
  /-- What is raised when a piece is printed. -/
  refuses : Piece → Option Exception

end Sigil.Command

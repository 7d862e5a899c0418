import Sigil.Command.Platform
import Sigil.Document.Basic
import Sigil.Text.Blank

/-!
# Sessions

A session reads lines. A declaration is put on top of the registry for the rest of the session; any
other line is read as an expression, shown, and resolved. Faults are printed and the session goes
on. A word of farewell ends it, and so does the end of the lines.

`Session.turn` is one line, and `Session.converse` is a whole session.
-/

namespace Sigil.Command

variable {Line Input : Type} (p : Platform Line Input)

/-! ## 1. Parts of commands -/

def readExpression (text : String) : Run Expr := .of ((Expr.ofText text).mapError Raised.ofRead)

/-- An answer about an expression, which has to have no foreign value in it. -/
def ofNodes {α : Type} (answer : Except NotExpression α) : Run α :=
  .of (answer.mapError fun fault => .outside (.kind fault.message))

/-- Resolves an expression, with the warnings on the way. -/
def resolveIn (registry : Registry) (settings : Settings) (e : Expr) : Run Expr :=
  let task : Task := ⟨registry, settings, e⟩
  let resolution := task.resolution (p.nesting task)
  ⟨resolution.warnings.map .warning, match resolution.outcome with
    | .value result => .ok result
    | .error fault => .error (.ofResolve fault)
    | .unfinished => .error (.outside .nesting)⟩

/-- The definitions of the chosen schema. Its own failures are told. -/
def schemaEntries (choices : Choices) : Except Raised (List (String × String)) :=
  match choices.schema with
  | none => .ok []
  | some path =>
    ((Schema.ofPath p.toLoader path).map fun schema =>
      Entries.putAll schema.definitions []).mapError
      Raised.tellOwn

/-- The built-in definitions with those of a schema on top. -/
def baseRegistry (schema : List (String × String)) : Registry :=
  (Registry.empty.putAll Registry.builtins).putAll schema

/-! ## 2. Sessions -/

/-- A session: what is defined so far, and how to resolve. -/
structure Session where
  registry : Registry
  settings : Settings

namespace Session

def prompt : Piece := .out "Input (or 'exit' to quit): "

def farewells : List String := ["exit", "quit"]

def goodbye : Piece := .out "Goodbye!\n"

def start (choices : Choices) : Except Raised Session := do
  return ⟨baseRegistry (← schemaEntries p choices), choices.settings⟩

/-- Shows an expression and what it resolves to. -/
def present (session : Session) (e : Expr) : Run Unit := do
  let read ← ofNodes e.format
  Run.say (.out ("Parsed:   " ++ read ++ "\n"))
  let result ← resolveIn p session.registry session.settings e
  let resolved ← ofNodes result.format
  Run.say (.out ("Resolved: " ++ resolved ++ "\n"))

/-- Answers a line that is read as an expression; the own failures on the way are printed. -/
def answer (session : Session) (line : String) : Run Unit :=
  (do session.present p (← readExpression line)).recover fun failure =>
    Run.say (errorLine failure.message)

/-- Answers a line, without the blanks around it. Gives the session that goes on, if it does. -/
def turn (session : Session) (line : String) : Run (Option Session) :=
  if line ∈ farewells then do
    Run.say goodbye
    return none
  else if line.isEmpty then return some session
  else match Declaration.ofLine? line.toList with
    | some d =>
      if d.text.isEmpty then do
        Run.say (errorLine (Declaration.emptyMessage d.name))
        return some session
      else do
        Run.say (.out ("Defined: " ++ d.name ++ "\n"))
        return some { session with registry := session.registry.putAll [(d.name, d.text)] }
    | none => do
      session.answer p line
      return some session

/-- Answers lines in turn, up to an end that counts as a farewell. -/
def converse (session : Session) (ending : FeedEnd) : List String → Run Unit
  | [] => do
    Run.say prompt
    match ending with
    | .eof => Run.say goodbye
    | .raised e => Run.raise (.outside e)
    | .beyond rest => rest
  | line :: lines => do
    Run.sayAll [prompt, .typed (line ++ "\n")]
    match ← session.turn p (Text.trimmed line) with
    | some next => next.converse ending lines
    | none => return ()

end Session

end Sigil.Command

import Sigil.Command.Session

/-!
# Running a command line

A command line is read as a call, the call is performed, and what it raises is turned into the end
of the program: a fault that is told ends it with status one, a fault of usage with status two. What
else is raised is not handled.
-/

namespace Sigil.Command

variable {Line Input : Type} (p : Platform Line Input)

/-! ## 1. Commands -/

def render : Format → Expr → Run String
  | .tagged, e => do return (← ofNodes e.format) ++ "\n"
  | .yaml, e => do
    let data ← ofNodes e.data
    Run.of ((p.write data).mapError Raised.outside)

def printAs (format : Format) (e : Expr) : Run Unit := do
  Run.say (.out (← render p format e))

/-- The document under a path. -/
def documentOf (path : String) : Except Raised Document := do
  let cs ← ((p.entryAt path).text path).mapError (Raised.unreadableDocument (shownPath path))
  (Document.ofText (String.ofList cs)).mapError fun fault => .own (.document fault)

/-- The registry and the text to resolve: those of the chosen document on top of a registry, or the
    expression that is given. -/
def sources (base : Registry) (choices : Choices) (expression : String) :
    Except Raised (Registry × String) :=
  match choices.document with
  | none => .ok (base, expression)
  | some path => do
    let document ← documentOf p path
    return ((base.putAll document.inline).putAll document.userTypes, document.expression)

/-- What an expression resolves to, or the one of the chosen document. -/
def resolved (base : Registry) (choices : Choices) (expression : String) : Run Expr := do
  let (registry, text) ← Run.of (sources p base choices expression)
  let e ← readExpression text
  resolveIn p registry choices.settings e

/-- Resolves an expression, or the one of the chosen document, and prints the result. -/
def resolve (choices : Choices) (expression : Option String) : Run Unit := do
  if expression.isSome = choices.document.isSome then
    Run.raise (.misuse "Provide exactly one of EXPRESSION or --file")
  else
    let schema ← Run.of (schemaEntries p choices)
    let result ← (resolved p (baseRegistry schema) choices (expression.getD "")).handled
      Raised.tellOwn
    printAs p choices.format result

/-- Reads an expression; the own failures on the way are told. -/
def readOrTell (text : String) : Run Expr := (readExpression text).handled Raised.tellOwn

/-- Prints an expression in its tagged form, or ends the program if it is to be
    settled and is not. -/
def fmt (text : String) (check : Bool) : Run Unit := do
  let e ← readOrTell text
  if check then
    if e.isSettled then return () else Run.raise (.quit 1)
  else
    let tagged ← ofNodes e.format
    Run.say (.out (tagged ++ "\n"))

def perform (input : Input) : Call → Run Unit
  | .parse text format => do printAs p format (← readOrTell text)
  | .resolve expression choices => resolve p choices expression
  | .fmt text check => fmt text check
  | .repl choices => do
    let session ← Run.of (Session.start p choices)
    session.converse p (p.feed input).ending (p.feed input).lines

/-! ## 2. The end of the program -/

/-- The report on a run: an error that was raised is told, and a fault of usage is printed. -/
def Report.ofRun (run : Run Unit) : Report :=
  match run.outcome with
  | .ok () => ⟨run.pieces, .exit 0⟩
  | .error (.told message) => ⟨run.pieces ++ [errorLine message], .exit 1⟩
  | .error (.misuse message) => ⟨run.pieces ++ [.err (p.usageText message)], .exit 2⟩
  | .error (.quit status) => ⟨run.pieces, .exit status⟩
  | .error raised => ⟨run.pieces, .raised raised⟩

def Reading.report (input : Input) : Reading → Report
  | .call asked => Report.ofRun p (perform p input asked)
  | .shown text => ⟨[.out text], .exit 0⟩
  | .misuse text => ⟨[.err text], .exit 2⟩
  | .told message => ⟨[errorLine message], .exit 1⟩
  | .raised e => ⟨[], .raised (.outside e)⟩
  | .beyond report => report

/-- The report on a command line before it is printed. -/
def draft (line : Line) (input : Input) : Report := (p.read codeList line).report p input

def run (line : Line) (input : Input) : Report := (draft p line input).delivered p.refuses

end Sigil.Command

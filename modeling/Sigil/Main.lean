import Sigil.Outer.Platform

/-!
# The program

The outermost layer: it looks up the files of a command line, prints the pieces of a
report as they come, and reads the lines of a session one by one. All that is decided is
decided in `Sigil.Command`.
-/

open Sigil Command

/-- What stands under a path. -/
def lookUp (path : String) : IO Entry := do
  try
    return .file (← IO.FS.readBinFile path).toList
  catch fault =>
    return match fault with
      | .inappropriateType _ 21 _ => .directory
      | .inappropriateType _ _ _ => .blocked
      | .permissionDenied _ _ _ => .locked
      | _ => .absent

/-- Prints a piece. What was typed is on the screen already. -/
def say (piece : Piece) : IO Unit := do
  match piece with
  | .out text => IO.print text
  | .err text => IO.eprint text
  | .warning w => IO.eprintln w.text
  | .typed _ => pure ()
  (← IO.getStdout).flush

/-- Prints a report, and gives the status that it ends with. -/
def finish (report : Report) : IO UInt32 := do
  report.pieces.forM say
  match report.ending with
  | .exit status => return status.toUInt32
  | .raised raised =>
    IO.eprintln raised.message
    return 1

/-- Goes on with a session, first with the lines that are waiting. -/
partial def converse (p : Platform (List String) String) (input : IO.FS.Stream) (session : Session)
    (waiting : List (List Char)) : IO UInt32 := do
  say Session.prompt
  let lines ← if waiting.isEmpty then do
      let read ← input.getLine
      pure (Text.fileLines read.toList)
    else pure waiting
  match lines with
  | [] =>
    say Session.goodbye
    return 0
  | line :: rest =>
    let turn := session.turn p (Text.trimmed (String.ofList line))
    match turn.outcome with
    | .ok (some session) =>
      turn.pieces.forM say
      converse p input session rest
    | .ok none => finish ⟨turn.pieces, .exit 0⟩
    | .error raised => finish ⟨turn.pieces, .raised raised⟩

/-- Follows a command line. -/
def main (args : List String) : IO UInt32 := do
  let entries ← (Outer.paths args).mapM fun path => do return (path, ← lookUp path)
  let p := Outer.platform fun path => (Entries.find? path entries).getD .absent
  match p.read codeList args with
  | .call (.repl choices) => match Session.start p choices with
    | .ok session => converse p (← IO.getStdin) session []
    | .error raised => finish (Report.ofRun p (Run.raise raised))
  | reading => finish (reading.report p "")

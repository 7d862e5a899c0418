import Sigil.Raised

/-!
# Runs

A command runs: it prints pieces of output one after the other, and gives a value in the
end or raises something. A handler sees what is raised and nothing else; what was
printed before stays printed.
-/

namespace Sigil.Command

/-! ## 1. Output -/

inductive Piece where
  | out (text : String)
  | err (text : String)
  /-- A line that was typed in, with its end. -/
  | typed (line : String)
  | warning (w : Warning)

/-- The line that tells a fault. -/
def errorLine (message : String) : Piece := .err ("Error: " ++ message ++ "\n")

/-! ## 2. Runs -/

/-- The pieces that are printed, and how the run ends. -/
structure Run (α : Type) where
  pieces : List Piece
  outcome : Except Raised α

namespace Run

variable {α β : Type}

def of (outcome : Except Raised α) : Run α := ⟨[], outcome⟩

/-- One run, then another from its value. -/
def andThen (x : Run α) (f : α → Run β) : Run β :=
  match x.outcome with
  | .ok a => ⟨x.pieces ++ (f a).pieces, (f a).outcome⟩
  | .error raised => ⟨x.pieces, .error raised⟩

instance : Monad Run where
  pure a := of (.ok a)
  bind := andThen

def say (piece : Piece) : Run Unit := ⟨[piece], .ok ()⟩

def sayAll (pieces : List Piece) : Run Unit := ⟨pieces, .ok ()⟩

def raise (raised : Raised) : Run α := of (.error raised)

/-- A handler that raises in place of what it names. -/
def handled (handler : Raised → Raised) (x : Run α) : Run α :=
  ⟨x.pieces, x.outcome.mapError handler⟩

/-- A handler of the program's own failures, which goes on after them. -/
def recover (x : Run Unit) (handler : Failure → Run Unit) : Run Unit :=
  match x.outcome with
  | .error (.own failure) =>
    ⟨x.pieces ++ (handler failure).pieces, (handler failure).outcome⟩
  | _ => x

end Run

/-! ## 3. Reports -/

/-- How a program ends: with a status, or with something that was raised and not handled. -/
inductive Ending where
  | exit (status : Nat)
  | raised (raised : Raised)

/-- What a program prints, and how it ends. -/
structure Report where
  pieces : List Piece
  ending : Ending

namespace Report

/-- Prints pieces one by one. A piece that is refused raises what refuses it, which nothing around a
    piece handles, and ends the program. -/
def deliver (refuses : Piece → Option Exception) (ending : Ending) : List Piece → Report
  | [] => ⟨[], ending⟩
  | piece :: pieces => match refuses piece with
    | some e => ⟨[], .raised (.outside e)⟩
    | none =>
      let rest := deliver refuses ending pieces
      ⟨piece :: rest.pieces, rest.ending⟩

def delivered (refuses : Piece → Option Exception) (report : Report) : Report :=
  deliver refuses report.ending report.pieces

/-- The text of the pieces of one kind. -/
def textOf (select : Piece → Option String) (report : Report) : String :=
  String.join (report.pieces.filterMap select)

/-- What is printed, with the lines typed in between. -/
def stdout : Report → String := textOf fun
  | .out text => some text
  | .typed line => some line
  | _ => none

def stderr : Report → String := textOf fun
  | .err text => some text
  | _ => none

def warnings (report : Report) : List Warning := report.pieces.filterMap fun
  | .warning w => some w
  | _ => none

end Report

end Sigil.Command

import Sigil.Command.Perform
import Sigil.Proofs.Command.Run
import Sigil.Proofs.Resolve.Foreseen
import Sigil.Proofs.Resolve.Nesting

/-!
# How steps and sessions end

Of the steps of a command it is told how each ends: reading (`readExpression_eq_error_iff`),
resolving (`resolveIn_eq_error_iff`) and printing (`printAs_eq_error_iff`). No step finds a foreign
value, and the tokens never run out under the reader. So what a step raises is a failure of the
program's own, or it comes from what the program is run with.

What the interpreter bears is left open. Nothing that the program checks keeps within it: whatever
the bound, there is a resolution that comes to an end beyond it (`exists_not_bears`).

A session prints its own failures and goes on. What ends it before its time is listed
(`Session.Raises`), and there is nothing else (`Session.converse_eq_error_iff`).
-/

namespace Sigil.Command

variable {Line Input : Type} {p : Platform Line Input}

/-- The resolution comes to an end, with walks that nest at most so deep. -/
def Task.Finishes (task : Task) (nesting : Nat) : Prop :=
  (task.resolution nesting).outcome ≠ .unfinished

section Steps

variable {α : Type} {text : String} {registry : Registry} {settings : Settings} {format : Format}
  {e r : Expr} {raised : Raised}

variable (p) in
/-- The resolution that is done for an expression, as far as the walk may nest. -/
def answerTo (registry : Registry) (settings : Settings) (e : Expr) : Resolution :=
  Task.resolution ⟨registry, settings, e⟩ (p.nesting ⟨registry, settings, e⟩)

variable (p) in
/-- The resolution of an expression comes to an end before the interpreter gives up. -/
def Bears (registry : Registry) (settings : Settings) (e : Expr) : Prop :=
  Task.Finishes ⟨registry, settings, e⟩ (p.nesting ⟨registry, settings, e⟩)

/-- An interpreter that bears no more than so many nested walks gives up on a resolution
    that comes to an end. -/
theorem exists_not_bears {bound : Nat} (bounded : ∀ task, p.nesting task ≤ bound)
    (deep : settings.mode = .deep) (calm : ∀ code, settings.verdict code ≠ .raise)
    (read : Expr.ofText "$a.x" = .ok e) :
    ∃ registry, ¬ Bears p registry settings e ∧
      ∃ n, (Task.resolution ⟨registry, settings, e⟩ n).outcome = .value .null := by
  obtain ⟨registry, hunfinished, hvalue⟩ := Expr.no_nesting_is_enough bound deep calm read
  exact ⟨registry, fun hbears => hbears (hunfinished _ (bounded _)), hvalue⟩

variable (p) in
/-- The writer of YAML does not take the expression, and raises this. -/
structure CannotWrite (format : Format) (e : Expr) (cause : Exception) : Prop where
  yaml : format = .yaml
  raised : p.write e.toData = .error cause

end Steps

/-! ## 2. What is told -/

/-- The text of a fault that the program tells. -/
inductive Told : String → Prop
  | own (failure : Failure) : Told failure.message
  | unreadable (path : String) (why : SystemFault) :
    Told ("Cannot read " ++ path ++ ": " ++ why.message)
  | declaration (name : String) : Told (Declaration.emptyMessage name)

/-- Whatever is printed about faults tells one. -/
def AllTold (pieces : List Piece) : Prop :=
  ∀ text, .err text ∈ pieces → ∃ message, Told message ∧ .err text = errorLine message

namespace Session

section Lines

variable {session next : Session} {line : String} {e : Expr} {raised : Raised}

/-- A line that is read as an expression. -/
structure IsQuestion (line : String) (e : Expr) : Prop where
  goesOn : line ∉ farewells
  nonempty : line.isEmpty = false
  undeclared : Declaration.ofLine? line.toList = none
  read : Expr.ofText line = .ok e

end Lines

variable (p) in
/-- What ends a session before its time: a resolution that nests too deep, or the input once it is
    asked for more than its lines. -/
inductive Raises (ending : FeedEnd) : Session → List String → Exception → Prop
  | asking {session : Session} {e : Exception} (h : ending = .raised e) : Raises ending session [] e
  | resolving {session : Session} {line : String} {lines : List String} {e : Expr}
    (question : IsQuestion (Text.trimmed line) e)
    (deep : ¬ Bears p session.registry session.settings e) :
    Raises ending session (line :: lines) .nesting
  | later {session next : Session} {line : String} {lines : List String} {e : Exception}
    (turn : (session.turn p (Text.trimmed line)).outcome = .ok (some next))
    (h : Raises ending next lines e) : Raises ending session (line :: lines) e

end Session

end Sigil.Command

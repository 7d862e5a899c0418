import Sigil.Resolve.Deep
import Sigil.Resolve.Flat

/-!
# Resolution

An expression is resolved against a registry in one of two modes, and the answer is the expression
that comes out, or a fault, together with the warnings reported on the way.

The warnings of a deep resolution are read off its trace. The first stop at each name on a cycle is
worth one warning; a budget that ran out is worth one, after all others and only if there is a
result. A warning that the policy escalates ends the resolution there: later stops, and even an
earlier end of the walk, no longer count.
-/

namespace Sigil

structure Resolution where
  warnings : List Warning
  outcome : Outcome Expr

namespace Resolution

/-- The names of the cycles that a trace stopped at, each at its first stop. -/
def cycles (seen : List String) : List Stop → List String
  | [] => []
  | .budget :: stops => cycles seen stops
  | .cycle name :: stops =>
    if name ∈ seen then cycles seen stops else name :: cycles (name :: seen) stops

/-- Reports warnings in turn and goes on to an outcome; at the first one that is escalated it ends
    with that. -/
def report (verdict : Code → Verdict) (outcome : Outcome Expr) : List Warning → Resolution
  | [] => ⟨[], outcome⟩
  | w :: ws => match verdict w.code with
    | .drop => report verdict outcome ws
    | .raise => ⟨[], .error (.escalated w)⟩
    | .report =>
      let rest := report verdict outcome ws
      ⟨w :: rest.warnings, rest.outcome⟩

/-- All that a trace is worth a warning for, in order. -/
def warningsOf (passes : Nat) (trace : Trace Expr) : List Warning :=
  (cycles [] trace.stops).map Warning.cycle ++
    match trace.outcome with
    | .value result => if Stop.budget ∈ trace.stops then [.budget passes result] else []
    | _ => []

end Resolution

namespace Expr

/-- Deep resolution, nested at most so many times. -/
def resolveDeep (nesting : Nat) (definitions : Definitions) (settings : Settings) (e : Expr) :
    Resolution :=
  let trace := walk definitions settings.budget settings.exhaustion nesting .root e
  Resolution.report settings.verdict trace.outcome
    (Resolution.warningsOf settings.budget.passes trace)

/-- Flat resolution: no warning, no count. -/
def resolveFlat (definitions : Definitions) (e : Expr) : Resolution :=
  match e.flat definitions with
  | .ok result => ⟨[], .value result⟩
  | .error fault => ⟨[], .error fault⟩

/-- Resolution in the mode of the settings; a deep walk nests at most so many times. -/
def resolve (nesting : Nat) (registry : Registry) (settings : Settings) (e : Expr) : Resolution :=
  match settings.mode with
  | .flat => e.resolveFlat registry.definitions
  | .deep => e.resolveDeep nesting registry.definitions settings

end Expr

end Sigil

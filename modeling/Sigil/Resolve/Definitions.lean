import Sigil.Expr.Reader
import Sigil.Registry
import Sigil.Resolve.Error

/-!
# Definitions and member access

The two questions that expansion asks: what a name stands for, and what a member access picks
from an object. A name without a definition stands for nothing, and a definition that is not
an expression is a fault only of those who ask for it. A member access on something still
symbolic picks nothing yet.
-/

namespace Sigil

/-- The texts of a registry, each read as an expression. -/
abbrev Definitions := List (String × Except ReadError Expr)

def Registry.definitions (r : Registry) : Definitions :=
  r.entries.map fun entry => (entry.1, Expr.ofText entry.2)

namespace Definitions

def expansion (definitions : Definitions) (name : String) : Except ResolveError (Option Expr) :=
  match Entries.find? name definitions with
  | none => .ok none
  | some (.ok expanded) => .ok (some expanded)
  | some (.error cause) => .error (.badDefinition name cause)

end Definitions

/-- What a member access picks from its expanded target. -/
def Expr.select (target : Expr) (field : String) : Except ResolveError (Option Expr) :=
  match target with
  | .object fields => match field? fields field with
    | some value => .ok (some value)
    | none => .error (.missingField field (fields.map Prod.fst))
  | .reference _ | .action _ | .member _ _ => .ok none
  | target => .error (.notStructured field target)

end Sigil

import Sigil.Expr.Error
import Sigil.Warning

/-!
# Faults of resolution

Why an expression cannot be expanded against a registry.
-/

namespace Sigil

/-- The deepest level of a result at which a definition may still be put in. -/
def maxResultNesting : Nat := 128

/-- Why resolution fails. -/
inductive ResolveError where
  | missingField (field : String) (available : List String)
  /-- The value is no object and never will be. -/
  | notStructured (field : String) (target : Expr)
  /-- The budget ran out, and the settings ask to fail. -/
  | budgetExceeded (passes : Nat)
  /-- A definition would be put in below `maxResultNesting` levels. -/
  | tooDeep
  /-- The definition of a name is not an expression. -/
  | badDefinition (name : String) (cause : ReadError)
  | notExpression (shown : String)
  /-- A warning that the policy turns into an error. -/
  | escalated (warning : Warning)

def ResolveError.message : ResolveError → String
  | .missingField field available =>
    let fields := ", ".intercalate available
    "Field " ++ Text.display field ++ " not found (available: " ++
      (if fields == "" then "none" else fields) ++ ")"
  | .notStructured field target =>
    "Cannot access field " ++ Text.display field ++ " on non-object value " ++ target.tagged
  | .budgetExceeded passes =>
    "Deep resolution did not reach a fixed point within " ++ toString passes ++ " passes"
  | .tooDeep => "Expansion nests deeper than " ++ toString maxResultNesting ++ " levels"
  | .badDefinition name cause =>
    "Invalid definition for " ++ Text.display name ++ ": " ++ cause.message
  | .notExpression shown => "Not a composite expression node: " ++ Text.display shown
  | .escalated warning => warning.text

end Sigil

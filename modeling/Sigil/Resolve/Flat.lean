import Sigil.Resolve.Definitions

/-!
# Flat resolution

One level of expansion: every reference and action that has a definition is replaced by it, as it
stands there. A member access picks from its target after that. Nothing is reported, and the first
fault in reading order is the error.
-/

namespace Sigil.Expr

mutual

/-- The expression with each symbol expanded once. -/
def flat (definitions : Definitions) : Expr → Except ResolveError Expr
  | .reference name => do return (← definitions.expansion name).getD (.reference name)
  | .action name => do return (← definitions.expansion name).getD (.action name)
  | .member target field => do
    let target ← target.flat definitions
    return (← target.select field).getD (.member target field)
  | .binary op left right => do
    return .binary op (← left.flat definitions) (← right.flat definitions)
  | .array items => do return .array (← flatItems definitions items)
  | .object fields => do return .object (← flatFields definitions fields)
  | .similarity inner => do return .similarity (← inner.flat definitions)
  | .difference inner => do return .difference (← inner.flat definitions)
  | .foreign shown => .error (.notExpression shown)
  | .null => .ok .null
  | .bool value => .ok (.bool value)
  | .number value => .ok (.number value)
  | .string value => .ok (.string value)
  | .existence => .ok .existence

def flatItems (definitions : Definitions) : List Expr → Except ResolveError (List Expr)
  | [] => .ok []
  | item :: items => do return (← item.flat definitions) :: (← flatItems definitions items)

def flatFields (definitions : Definitions) :
    List (String × Expr) → Except ResolveError (List (String × Expr))
  | [] => .ok []
  | (key, value) :: fields => do
    return (key, ← value.flat definitions) :: (← flatFields definitions fields)

end

end Sigil.Expr

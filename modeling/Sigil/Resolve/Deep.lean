import Sigil.Resolve.Definitions
import Sigil.Resolve.Settings

/-!
# Deep resolution

Expansion until nothing changes. A symbol is replaced by its definition, and that is expanded in
turn; a member access picks from its expanded target, and what it picks is expanded once more. An
expansion knows three things of the place where it stands:

* `visited`, the names that it stands inside of: such a name is on a cycle and stays as it is;
* `depth`, how many expansions it is nested in, against the budget;
* `level`, how far below the root of the result it stands.

The walk itself keeps no state. It leaves a trace of the symbols at which it stopped, in order, and
what is reported is read off the trace afterwards. Member accesses can pick from an expansion that
contains the same access again, without end; so the walk counts its own nesting down and is
`unfinished` at zero, which is neither a value nor a fault.
-/

namespace Sigil

/-! ## 1. Traces -/

/-- Why a symbol that has a definition was left as it is: its name is on a cycle, or the budget ran
    out. -/
inductive Stop where
  | cycle (name : String)
  | budget
  deriving DecidableEq, Repr

inductive Outcome (α : Type) where
  | value (a : α)
  | error (e : ResolveError)
  | unfinished

/-- An expansion: the stops on the way and the end. -/
structure Trace (α : Type) where
  stops : List Stop
  outcome : Outcome α

namespace Trace

variable {α β : Type}

def value (a : α) : Trace α := ⟨[], .value a⟩

def error (e : ResolveError) : Trace α := ⟨[], .error e⟩

/-- A count run down to zero. -/
def unfinished : Trace α := ⟨[], .unfinished⟩

/-- A value that stands where an expansion stopped. -/
def stopped (stop : Stop) (a : α) : Trace α := ⟨[stop], .value a⟩

/-- One expansion, then another from its value. -/
def andThen (x : Trace α) (f : α → Trace β) : Trace β :=
  match x.outcome with
  | .value a => let y := f a; ⟨x.stops ++ y.stops, y.outcome⟩
  | .error e => ⟨x.stops, .error e⟩
  | .unfinished => ⟨x.stops, .unfinished⟩

instance : Monad Trace where
  pure := value
  bind := andThen

/-- A value or a fault, with no stop on the way. -/
def ofExcept : Except ResolveError α → Trace α
  | .ok a => value a
  | .error e => error e

end Trace

namespace Expr

/-! ## 2. The walk -/

def walkItems (f : Expr → Trace Expr) : List Expr → Trace (List Expr)
  | [] => .value []
  | item :: items => do return (← f item) :: (← walkItems f items)

def walkFields (f : Expr → Trace Expr) : List (String × Expr) → Trace (List (String × Expr))
  | [] => .value []
  | (key, value) :: fields => do return (key, ← f value) :: (← walkFields f fields)

structure Place where
  visited : List String
  depth : Nat
  level : Nat

def Place.root : Place := ⟨[], 0, 0⟩

/-- One level further down. -/
def Place.below (p : Place) : Place := { p with level := p.level + 1 }

/-- Inside the expansion of a name. -/
def Place.inside (p : Place) (name : String) : Place :=
  { p with visited := name :: p.visited, depth := p.depth + 1 }

/-- A symbol, at its place; `walk` expands the definition. A name without a definition
    stays, whatever the place; a definition that cannot be read is a fault even where
    there is no budget left. -/
def walkSymbol (definitions : Definitions) (budget : Budget) (exhaustion : Exhaustion)
    (walk : Place → Expr → Trace Expr) (p : Place) (name : String) (symbol : Expr) : Trace Expr :=
  if name ∈ p.visited then .stopped (.cycle name) symbol
  else do
    match ← Trace.ofExcept (definitions.expansion name) with
    | none => return symbol
    | some expanded =>
      if budget.passes ≤ p.depth then
        match exhaustion with
        | .fail => .error (.budgetExceeded budget.passes)
        | .keep => .stopped .budget symbol
      else if maxResultNesting ≤ p.level then .error .tooDeep
      else walk (p.inside name) expanded

/-- The expansion of an expression at its place, nested at most so many times. -/
def walk (definitions : Definitions) (budget : Budget) (exhaustion : Exhaustion) :
    Nat → Place → Expr → Trace Expr
  | 0, _, _ => .unfinished
  | n + 1, p, e =>
    let below := walk definitions budget exhaustion n p.below
    match e with
    | .reference name =>
      walkSymbol definitions budget exhaustion (walk definitions budget exhaustion n) p name e
    | .action name =>
      walkSymbol definitions budget exhaustion (walk definitions budget exhaustion n) p name e
    | .member target field => do
      let target ← below target
      match ← Trace.ofExcept (target.select field) with
      | none => return .member target field
      | some value => walk definitions budget exhaustion n p value
    | .binary op left right => do return .binary op (← below left) (← below right)
    | .array items => do return .array (← walkItems below items)
    | .object fields => do return .object (← walkFields below fields)
    | .similarity inner => do return .similarity (← below inner)
    | .difference inner => do return .difference (← below inner)
    | .foreign shown => .error (.notExpression shown)
    | .null | .bool _ | .number _ | .string _ | .existence => return e

end Expr

end Sigil

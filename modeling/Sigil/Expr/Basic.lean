import Sigil.Text.Display
import Sigil.Token.Basic

/-!
# Expressions

An expression is a literal, a symbol that refers outward (a reference, an action, the mere claim
that something exists), a member access, one of seven binary operations, or a structure: an
array, an object, and the two bracketed forms around a single expression, similarity and
difference. Trees made by hand may hold a foreign value where an expression should stand; it is
kept as a text, and each operation says what it makes of it. What tells the kinds of expressions
apart refuses it (`ifWhole`).
-/

namespace Sigil

/-! ## 1. Operators -/

inductive Operator where
  | ascription | bind | product | morphism | choice | equality | inequality
  deriving DecidableEq, Repr

namespace Operator

/-- The symbol an operator is written with. -/
def symbol : Operator → Symbol
  | .ascription => .colon
  | .bind => .at
  | .product => .star
  | .morphism => .arrow
  | .choice => .pipe
  | .equality => .equal
  | .inequality => .unequal

/-- The operator a symbol stands for. -/
def ofSymbol? : Symbol → Option Operator
  | .colon => some .ascription
  | .at => some .bind
  | .star => some .product
  | .arrow => some .morphism
  | .pipe => some .choice
  | .equal => some .equality
  | .unequal => some .inequality
  | _ => none

theorem ofSymbol?_eq_some_iff {s : Symbol} {op : Operator} :
    ofSymbol? s = some op ↔ s = op.symbol := by
  cases s <;> cases op <;> simp [ofSymbol?, symbol]

/-- The category that a tag or a key names. -/
def tag : Operator → String
  | .ascription => "annotation"
  | .bind => "bind"
  | .product => "product"
  | .morphism => "morphism"
  | .choice => "choice"
  | .equality => "equality"
  | .inequality => "inequality"

/-- How tightly an operator binds; equality and inequality share the loosest level. -/
def binding : Operator → Nat
  | .ascription => 7
  | .bind => 6
  | .product => 5
  | .morphism => 4
  | .choice => 3
  | .equality => 2
  | .inequality => 2

end Operator

/-! ## 2. Trees -/

/-- An expression tree. -/
inductive Expr where
  | null
  | bool (value : Bool)
  | number (value : Binary64)
  | string (value : String)
  | reference (name : String)
  | action (name : String)
  | existence
  | member (target : Expr) (field : String)
  | binary (op : Operator) (left right : Expr)
  | array (items : List Expr)
  | object (fields : List (String × Expr))
  | similarity (inner : Expr)
  | difference (inner : Expr)
  | foreign (shown : String)
  deriving Inhabited

namespace Expr

/-- The value of the first field of that key. -/
def field? (fields : List (String × Expr)) (key : String) : Option Expr :=
  (fields.find? fun field => field.1 == key).map Prod.snd

/-! ## 3. Height -/

mutual

/-- The number of levels above the deepest leaf. Empty arrays and objects are leaves. -/
def height : Expr → Nat
  | .member target _ => target.height + 1
  | .binary _ left right => max left.height right.height + 1
  | .array [] => 0
  | .array (item :: items) => max item.height (heightOfItems items) + 1
  | .object [] => 0
  | .object ((_, value) :: fields) => max value.height (heightOfFields fields) + 1
  | .similarity inner => inner.height + 1
  | .difference inner => inner.height + 1
  | _ => 0

def heightOfItems : List Expr → Nat
  | [] => 0
  | item :: items => max item.height (heightOfItems items)

def heightOfFields : List (String × Expr) → Nat
  | [] => 0
  | (_, value) :: fields => max value.height (heightOfFields fields)

end

/-! ## 4. Equality -/

mutual

/-- Equality of structure: same shape, same names and keys in the same order, and
    numbers of the same value. -/
def same : Expr → Expr → Bool
  | .null, .null => true
  | .bool a, .bool b => a == b
  | .number a, .number b => a.same b
  | .string a, .string b => a == b
  | .reference a, .reference b => a == b
  | .action a, .action b => a == b
  | .existence, .existence => true
  | .member a f, .member b g => a.same b && f == g
  | .binary p a c, .binary q b d => p == q && a.same b && c.same d
  | .array as, .array bs => sameItems as bs
  | .object as, .object bs => sameFields as bs
  | .similarity a, .similarity b => a.same b
  | .difference a, .difference b => a.same b
  | .foreign a, .foreign b => a == b
  | _, _ => false

def sameItems : List Expr → List Expr → Bool
  | [], [] => true
  | a :: as, b :: bs => a.same b && sameItems as bs
  | _, _ => false

def sameFields : List (String × Expr) → List (String × Expr) → Bool
  | [], [] => true
  | (k, a) :: as, (l, b) :: bs => k == l && a.same b && sameFields as bs
  | _, _ => false

end

/-! ## 5. What is still symbolic -/

mutual

/-- Whether nothing is left to expand: no reference, action or member access anywhere. -/
def isSettled : Expr → Bool
  | .reference _ | .action _ | .member _ _ => false
  | .binary _ left right => left.isSettled && right.isSettled
  | .array items => itemsSettled items
  | .object fields => fieldsSettled fields
  | .similarity inner => inner.isSettled
  | .difference inner => inner.isSettled
  | _ => true

def itemsSettled : List Expr → Bool
  | [] => true
  | item :: items => item.isSettled && itemsSettled items

def fieldsSettled : List (String × Expr) → Bool
  | [] => true
  | (_, value) :: fields => value.isSettled && fieldsSettled fields

end

/-! ## 6. Foreign values -/

mutual

/-- The first foreign value in reading order. -/
def foreign? : Expr → Option String
  | .foreign shown => some shown
  | .member target _ => target.foreign?
  | .binary _ left right => left.foreign?.or right.foreign?
  | .array items => foreignItem? items
  | .object fields => foreignValue? fields
  | .similarity inner => inner.foreign?
  | .difference inner => inner.foreign?
  | _ => none

def foreignItem? : List Expr → Option String
  | [] => none
  | item :: items => item.foreign?.or (foreignItem? items)

def foreignValue? : List (String × Expr) → Option String
  | [] => none
  | (_, value) :: fields => value.foreign?.or (foreignValue? fields)

end

end Expr

/-- A foreign value where an expression should stand. -/
structure NotExpression where
  shown : String
  deriving DecidableEq, Repr

def NotExpression.message (e : NotExpression) : String :=
  "Not an expression node: " ++ Text.display e.shown

/-- An answer about an expression; the first foreign value in it is the error. -/
def Expr.ifWhole {α : Type} (e : Expr) (answer : α) : Except NotExpression α :=
  match e.foreign? with
  | some shown => .error ⟨shown⟩
  | none => .ok answer

end Sigil

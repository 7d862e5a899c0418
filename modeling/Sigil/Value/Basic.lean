import Sigil.Number.Binary64

/-!
# Values from outside

Options, definition sources and schema files come as plain values whose kinds nothing has
checked yet: scalars, lists, and maps from keys to values. A key is a scalar or a row of
scalars. Keys are compared by value, so a truth value, a whole number and a floating one of
the same value are one key.
-/

namespace Sigil

structure Date where
  year : Nat
  month : Nat
  day : Nat
  deriving DecidableEq, Repr

/-- A value without parts, or without parts that count. -/
inductive Scalar where
  | null
  | bool (b : Bool)
  | int (n : Int)
  | float (x : Binary64)
  | string (s : String)
  | date (d : Date)
  /-- A point in time, as it was written. -/
  | moment (written : String)
  /-- A value of any other kind, as it is shown. -/
  | other (shown : String)
  deriving DecidableEq, Repr, Inhabited

/-- What an entry of a map is found by. -/
inductive Key where
  | scalar (s : Scalar)
  | row (items : List Scalar)
  deriving DecidableEq, Repr

/-- A value: a scalar, a list or a map. Entries stand in the order in which they came. -/
inductive Value where
  | scalar (s : Scalar)
  | list (items : List Value)
  | map (entries : List (Key × Value))
  deriving Inhabited

namespace Scalar

/-- The whole number that a scalar is equal to, if there is one. -/
def toInt? : Scalar → Option Int
  | .bool b => some (if b then 1 else 0)
  | .int n => some n
  | .float x => x.toInt?
  | _ => none

def same (a b : Scalar) : Bool :=
  match a.toInt?, b.toInt? with
  | some m, some n => m == n
  | none, none => match a, b with
    | .float x, .float y => x.same y
    | a, b => a == b
  | _, _ => false

end Scalar

/-- Equality of rows, item by item. -/
def Key.sameRow : List Scalar → List Scalar → Bool
  | [], [] => true
  | a :: as, b :: bs => a.same b && sameRow as bs
  | _, _ => false

/-- Equality of value for keys. -/
def Key.same : Key → Key → Bool
  | .scalar a, .scalar b => a.same b
  | .row as, .row bs => Key.sameRow as bs
  | _, _ => false

def Key.text (s : String) : Key := .scalar (.string s)

namespace Value

abbrev null : Value := .scalar .null

abbrev string (s : String) : Value := .scalar (.string s)

/-- The value under a text, in a list of entries. -/
def find? (key : String) (entries : List (Key × Value)) : Option Value :=
  (entries.find? fun entry => entry.1 == Key.text key).map Prod.snd

end Value

end Sigil

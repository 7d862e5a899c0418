import Sigil.Entries
import Sigil.Expr.Basic

/-!
# Expressions as plain data

Plain data are what a file of data can hold: scalars, lists, and maps from texts. Literals, arrays
and objects are their own data. Every other expression becomes a map with a single key, its category
after an exclamation mark; a key of an object that starts with an exclamation mark gets one more, so
no object is mistaken for a symbol. A whole number is data as an integer, exactly.
-/

namespace Sigil

inductive Data where
  | null
  | bool (b : Bool)
  | int (n : Int)
  | float (x : Binary64)
  | string (s : String)
  | list (items : List Data)
  | map (entries : List (String × Data))
  deriving Inhabited

namespace Data

def categoryKey (category : String) : String := "!" ++ category

/-- A symbol of some category, as data. -/
def tagged (category : String) (body : Data) : Data := .map [(categoryKey category, body)]

/-- The key of a field. -/
def fieldKey (key : String) : String := if key.startsWith "!" then "!" ++ key else key

end Data

namespace Expr

mutual

/-- An expression as data. A foreign value has no category of its own and stands for itself. -/
def toData : Expr → Data
  | .null => .null
  | .bool value => .bool value
  | .number value => match value.toInt? with
    | some n => .int n
    | none => .float value
  | .string value => .string value
  | .reference name => .tagged "ref" (.string name)
  | .action name => .tagged "action" (.string name)
  | .existence => .tagged "existence" .null
  | .member target field =>
    .tagged "member" (.map [("object", target.toData), ("field", .string field)])
  | .binary op left right => .tagged op.tag (.list [left.toData, right.toData])
  | .array items => .list (itemsData items)
  | .object fields => .map (Entries.putAll (fieldsData fields) [])
  | .similarity inner => .tagged "similarity" inner.toData
  | .difference inner => .tagged "difference" inner.toData
  | .foreign shown => .string shown

def itemsData : List Expr → List Data
  | [] => []
  | item :: items => item.toData :: itemsData items

def fieldsData : List (String × Expr) → List (String × Data)
  | [] => []
  | (key, value) :: fields => (Data.fieldKey key, value.toData) :: fieldsData fields

end

/-- An expression as data, if it has no foreign value in it. -/
def data (e : Expr) : Except NotExpression Data := e.ifWhole e.toData

end Expr

end Sigil

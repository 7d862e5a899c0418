import Sigil.Expr.Basic
import Sigil.Text.Quoted

/-!
# The canonical tagged text

Every expression is written with a tag that names its category, so that the text shows which parts
are still symbolic. Operands stand in round brackets, and each structure between its own brackets.
A foreign value has no category, and an expression with one in it no tagged text (`format`).
-/

namespace Sigil.Expr

mutual

def tagged : Expr → String
  | .null => "null:null"
  | .bool value => (if value then "true" else "false") ++ ":bool"
  | .number value => value.text ++ ":number"
  | .string value => Text.quoted value ++ ":string"
  | .reference name => "$" ++ name ++ ":ref"
  | .action name => "!" ++ name ++ ":action"
  | .existence => "?:existence"
  | .member target field => "(" ++ target.tagged ++ ")." ++ field ++ ":member"
  | .binary op left right =>
    "(" ++ left.tagged ++ " " ++ op.symbol.spelling ++ " " ++ right.tagged ++ "):" ++ op.tag
  | .array items => "[" ++ ", ".intercalate (taggedItems items) ++ "]:array"
  | .object fields => "\x7b" ++ ", ".intercalate (taggedFields fields) ++ "\x7d:object"
  | .similarity inner => "[" ++ inner.tagged ++ "]:similarity"
  | .difference inner => "\x7b" ++ inner.tagged ++ "\x7d:difference"
  | .foreign shown => shown

def taggedItems : List Expr → List String
  | [] => []
  | item :: items => item.tagged :: taggedItems items

/-- The fields, each as its quoted key and the tagged text of its value. -/
def taggedFields : List (String × Expr) → List String
  | [] => []
  | (key, value) :: fields => (Text.quoted key ++ ": " ++ value.tagged) :: taggedFields fields

end

/-- The tagged text, of an expression that has one. -/
def format (e : Expr) : Except NotExpression String := e.ifWhole e.tagged

end Sigil.Expr

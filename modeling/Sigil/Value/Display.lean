import Sigil.Number.Text
import Sigil.Text.Display
import Sigil.Text.Integer
import Sigil.Value.Basic

/-!
# Values shown in a message

`display` shows a value with its kind visible: texts between quotes, lists in square brackets, rows
in round ones, maps in curly ones. `asText` is the same except that a text stands for itself and a
day is written in digits.
-/

namespace Sigil

/-- A number filled up with zeros to the given width. -/
def Date.padded (width n : Nat) : String :=
  let ds := Nat.toDigits 10 n
  String.ofList (List.replicate (width - ds.length) '0' ++ ds)

/-- A day as year, month and day of fixed width. -/
def Date.asText (d : Date) : String :=
  Date.padded 4 d.year ++ "-" ++ Date.padded 2 d.month ++ "-" ++ Date.padded 2 d.day

/-- A scalar with its kind visible. -/
def Scalar.display : Scalar → String
  | .null => "None"
  | .bool true => "True"
  | .bool false => "False"
  | .int n => toString n
  | .float x => x.display
  | .string s => Text.display s
  | .date d => "datetime.date(" ++ toString d.year ++ ", " ++ toString d.month ++ ", " ++
    toString d.day ++ ")"
  | .moment written => written
  | .other shown => shown

def Scalar.asText : Scalar → String
  | .string s => s
  | .date d => d.asText
  | s => s.display

/-- A key with its kind visible. A row of one item keeps a comma. -/
def Key.display : Key → String
  | .scalar s => s.display
  | .row [item] => "(" ++ item.display ++ ",)"
  | .row items => "(" ++ ", ".intercalate (items.map Scalar.display) ++ ")"

def Key.asText : Key → String
  | .scalar s => s.asText
  | key => key.display

namespace Value

mutual

/-- A value with its kind visible. -/
def display : Value → String
  | .scalar s => s.display
  | .list items => "[" ++ ", ".intercalate (displayItems items) ++ "]"
  | .map entries => "\x7b" ++ ", ".intercalate (displayEntries entries) ++ "\x7d"

def displayItems : List Value → List String
  | [] => []
  | item :: items => item.display :: displayItems items

def displayEntries : List (Key × Value) → List String
  | [] => []
  | (key, value) :: entries => (key.display ++ ": " ++ value.display) :: displayEntries entries

end

def asText : Value → String
  | .scalar s => s.asText
  | value => value.display

end Value

end Sigil

import Sigil.Text.Blank

/-!
# Whole numbers in free spelling

A whole number in the text of a user may have blanks around it, a sign in front, single
underscores between its digits, and digits of any script. `digitsOf?` settles the digits
and `readInt?` the rest.
-/

namespace Sigil.Text

/-- The zeros of the decimal digits, script by script; in each script the digits
    follow their zero. -/
def decimalZeros : List Nat :=
  [0x30, 0x660, 0x6F0, 0x7C0, 0x966, 0x9E6, 0xA66, 0xAE6, 0xB66, 0xBE6, 0xC66, 0xCE6, 0xD66, 0xDE6,
   0xE50, 0xED0, 0xF20, 0x1040, 0x1090, 0x17E0, 0x1810, 0x1946, 0x19D0, 0x1A80, 0x1A90, 0x1B50,
   0x1BB0, 0x1C40, 0x1C50, 0xA620, 0xA8D0, 0xA900, 0xA9D0, 0xA9F0, 0xAA50, 0xABF0, 0xFF10, 0x104A0,
   0x10D30, 0x11066, 0x110F0, 0x11136, 0x111D0, 0x112F0, 0x11450, 0x114D0, 0x11650, 0x116C0,
   0x11730, 0x118E0, 0x11950, 0x11C50, 0x11D50, 0x11DA0, 0x16A60, 0x16AC0, 0x16B50, 0x1D7CE,
   0x1D7D8, 0x1D7E2, 0x1D7EC, 0x1D7F6, 0x1E140, 0x1E2F0, 0x1E950, 0x1FBF0]

/-- The value of a decimal digit of any script. -/
def decimalValue? (c : Char) : Option Nat :=
  (decimalZeros.find? fun start => start ≤ c.toNat && c.toNat < start + 10).map (c.toNat - ·)

/-- The values of the digits of a number: at least one, single underscores between them. -/
def digitsOf? : List Char → Option (List Nat)
  | [] => none
  | [c] => (decimalValue? c).map ([·])
  | c :: '_' :: cs => do return (← decimalValue? c) :: (← digitsOf? cs)
  | c :: cs => do return (← decimalValue? c) :: (← digitsOf? cs)

def ofDigitValues (ds : List Nat) : Nat := ds.foldl (fun sum d => 10 * sum + d) 0

/-- The most digits of a number that is read or written. -/
def maxDigits : Nat := 4300

/-- What is said about a whole number with too many digits; `shown` tells how many
    where that is known. -/
def tooManyDigitsMessage (shown : String) : String :=
  "Exceeds the limit (" ++ toString maxDigits ++
    " digits) for integer string conversion" ++ shown ++
    "; use sys.set_int_max_str_digits() to increase the limit"

/-- The whole number that a text spells. -/
def readInt? (cs : List Char) : Option Int :=
  let unsigned (cs : List Char) : Option Nat := do
    let ds ← digitsOf? cs
    if maxDigits < ds.length then none else some (ofDigitValues ds)
  match trim cs with
  | '-' :: cs => (unsigned cs).map fun n => -(n : Int)
  | '+' :: cs => (unsigned cs).map Int.ofNat
  | cs => (unsigned cs).map Int.ofNat

end Sigil.Text

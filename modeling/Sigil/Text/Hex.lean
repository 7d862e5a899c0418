/-!
# Numbers in base sixteen

Character codes are written and read in base sixteen, at a fixed width, in either case.
-/

namespace Sigil.Text

/-- A number in base 16, in lower case, filled up with zeros to the given width. -/
def hexDigits (width n : Nat) : List Char :=
  let ds := Nat.toDigits 16 n
  List.replicate (width - ds.length) '0' ++ ds

/-- A number in base 16, in upper case, filled up with zeros to the given width. -/
def upperHexDigits (width n : Nat) : List Char := (hexDigits width n).map Char.toUpper

/-- The value of a digit of base 16, in either case. -/
def hexValue? (c : Char) : Option Nat :=
  if '0' ≤ c ∧ c ≤ '9' then some (c.toNat - '0'.toNat)
  else if 'a' ≤ c ∧ c ≤ 'f' then some (c.toNat - 'a'.toNat + 10)
  else if 'A' ≤ c ∧ c ≤ 'F' then some (c.toNat - 'A'.toNat + 10)
  else none

/-- The number that the digits spell, if all of them are digits. -/
def ofHexDigits? (cs : List Char) : Option Nat :=
  cs.foldl (fun sum? c => do return 16 * (← sum?) + (← hexValue? c)) (some 0)

end Sigil.Text

import Sigil.Number.Shortest

/-!
# Numbers as text

Two texts of a number. `display` is how a message shows it: the shortest digits that read back, in
positional form when the first digit stands between the fourth place after the point and the
sixteenth before it, and otherwise with an exponent of at least two digits. `text` is how the
notation writes it, always without an exponent: a whole number below `10 ^ 15` has no point, any
other number the digits of `display` in positional form.
-/

namespace Sigil

/-! ## 1. The digits of a decimal -/

/-- The digits of a decimal and the place of its point: `0.digits * 10 ^ point`. No digit string
    ends in a zero. -/
structure Decimal.Digits where
  digits : List Char
  point : Int

/-- A decimal as digits and point. -/
def Decimal.toDigits (d : Decimal) : Decimal.Digits :=
  let all := Nat.toDigits 10 d.coefficient
  ⟨(all.reverse.dropWhile (· == '0')).reverse, d.exponent + all.length⟩

/-- Digits with the point among them, zeros filling up to the point on either side. A whole number
    takes no point here. -/
def Decimal.Digits.positional (ds : Decimal.Digits) : List Char :=
  let n : Int := ds.digits.length
  if ds.point ≤ 0 then '0' :: '.' :: List.replicate (-ds.point).toNat '0' ++ ds.digits
  else if n ≤ ds.point then ds.digits ++ List.replicate (ds.point - n).toNat '0'
  else ds.digits.take ds.point.toNat ++ '.' :: ds.digits.drop ds.point.toNat

/-- One digit, the others after a point, and the exponent with its sign and at least two digits. -/
def Decimal.Digits.scientific (ds : Decimal.Digits) : List Char :=
  let exponent := ds.point - 1
  let places := Nat.toDigits 10 exponent.natAbs
  let mantissa := match ds.digits with
    | first :: second :: rest => first :: '.' :: second :: rest
    | short => short
  mantissa ++ 'e' :: (if exponent < 0 then '-' else '+') ::
    (List.replicate (2 - places.length) '0' ++ places)

namespace Binary64

/-! ## 2. How a message shows a number -/

def digits (x : Binary64) : Decimal.Digits := (shortest x.rank.val).toDigits

/-- Whether a number is shown in positional form. -/
def Positional (ds : Decimal.Digits) : Bool := -4 < ds.point && ds.point ≤ 16

/-- The magnitude as shown. A whole number in positional form keeps one place after the point. -/
def displayMagnitude (x : Binary64) : List Char :=
  if x.isZero then ['0', '.', '0']
  else
    let ds := x.digits
    if Positional ds then
      if (ds.digits.length : Int) ≤ ds.point then ds.positional ++ ['.', '0'] else ds.positional
    else ds.scientific

/-- The sign before a magnitude. -/
def signed (x : Binary64) (magnitude : List Char) : String :=
  String.ofList (if x.negative then '-' :: magnitude else magnitude)

/-- A number as a message shows it. -/
def display (x : Binary64) : String :=
  if x.isNaN then "nan"
  else if x.isFinite then x.signed x.displayMagnitude
  else x.signed ['i', 'n', 'f']

/-! ## 3. How the notation writes a number -/

/-- Whole numbers from here on, `10 ^ 15`, are written from their shortest digits. -/
def exactBound : Nat := 1000000000000000

/-- A number as the notation writes it. What is not finite is written as a message shows it. -/
def text (x : Binary64) : String :=
  match x.toInt? with
  | some n =>
    if n.natAbs < exactBound then toString n
    else if Positional x.digits then x.display
    else x.signed x.digits.positional
  | none =>
    if !x.isFinite || Positional x.digits then x.display else x.signed x.digits.positional

end Binary64

end Sigil

import Sigil.Number.Binary64

/-!
# Decimal numbers

A decimal is a coefficient times a power of ten. A digit string is read as a decimal exactly, and a
decimal as the nearest binary64 number.
-/

namespace Sigil

/-- `coefficient * 10 ^ exponent`. -/
structure Decimal where
  coefficient : Nat
  exponent : Int
  deriving DecidableEq, Repr

namespace Decimal

/-- The digits before and after the point, as a decimal. -/
def ofDigits (whole fraction : List Char) : Decimal :=
  ⟨Nat.ofDigitChars 10 (whole ++ fraction) 0, -(fraction.length : Int)⟩

def scale (d : Decimal) (power : Int) : Decimal := ⟨d.coefficient, d.exponent + power⟩

/-- The exact magnitude as a fraction of units: numerator and denominator. -/
def unitFraction (d : Decimal) : Nat × Nat :=
  if 0 ≤ d.exponent then (d.coefficient * Nat.pow 10 d.exponent.toNat * Binary64.unitsPerOne, 1)
  else (d.coefficient * Binary64.unitsPerOne, Nat.pow 10 (-d.exponent).toNat)

/-- The power of ten just above the decimal, zero for zero. -/
def order (d : Decimal) : Int :=
  if d.coefficient = 0 then 0 else d.exponent + (Nat.toDigits 10 d.coefficient).length

/-- The nearest binary64 number of the given sign. Beyond `10 ^ 310` that is infinity and below
    `10 ^ -330` zero, whatever the digits, so no such power is computed. -/
def toBinary64 (negative : Bool) (d : Decimal) : Binary64 :=
  if d.order < -330 then ⟨negative, Binary64.zero.rank⟩
  else if 310 < d.order then ⟨negative, Binary64.infinity.rank⟩
  else Binary64.nearest negative d.unitFraction.1 d.unitFraction.2

end Decimal

end Sigil

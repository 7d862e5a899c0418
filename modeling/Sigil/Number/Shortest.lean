import Sigil.Number.Decimal

/-!
# The shortest decimal that reads back

The decimal shown for a finite number is the one with the fewest digits that reads back as that
number, and of two such the one nearer to it. With `n` digits only the two decimals next to the
exact magnitude can do: if any decimal of that length reads back, one of these does. Each is tried
by reading it, so what is shown reads back by construction; the exact magnitude, which every number
has, stands behind the search.
-/

namespace Sigil.Binary64

/-- The exact magnitude: a unit is `5 ^ 1074` of the last of its 1074 places. -/
def exactDecimal (rank : Nat) : Decimal := ⟨units rank * Nat.pow 5 1074, -1074⟩

/-- Whether a decimal reads as the magnitude of this rank. -/
def reads (rank : Nat) (d : Decimal) : Bool := (d.toBinary64 false).rank.val == rank

/-- The decimal next to an exact one after dropping its last `dropped` digits, if one of the two
    neighbours reads back. A tie of distances goes to the even digit. -/
def neighbour? (rank : Nat) (exact : Decimal) (dropped : Nat) : Option Decimal :=
  let place := Nat.pow 10 dropped
  let low : Decimal := ⟨exact.coefficient / place, exact.exponent + dropped⟩
  let high : Decimal := ⟨exact.coefficient / place + 1, exact.exponent + dropped⟩
  match reads rank low, reads rank high with
  | true, true =>
    some (if roundToEven exact.coefficient place = low.coefficient then low else high)
  | true, false => some low
  | false, true => some high
  | false, false => none

/-- The shortest decimal that reads back as the magnitude of this rank, among those of up to 17
    digits, or else the exact one. -/
def shortest (rank : Nat) : Decimal :=
  let exact := exactDecimal rank
  let length := (Nat.toDigits 10 exact.coefficient).length
  ((List.range' 1 17).findSome? fun n => neighbour? rank exact (length - n)).getD exact

end Sigil.Binary64

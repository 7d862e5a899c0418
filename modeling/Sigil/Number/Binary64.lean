/-!
# Binary64 numbers

A number of the notation is an IEEE 754 binary64 number, kept as its sign and the rank of its
magnitude: the 63 bits below the sign read as one number. Ranks are in the order of the magnitudes.
The ranks below `infinityRank` are the finite magnitudes, `infinityRank` is infinity, and all above
it are not numbers.

Every finite magnitude is a whole number of units, a unit being the least positive magnitude
`2 ^ -1074`. So all arithmetic here is on `Nat`: `units` gives the exact magnitude of a rank, and
`nearestRank` the rank of a fraction of units, rounded to nearest with ties to even.
-/

namespace Sigil

/-- The bit of the sign, `2 ^ 63`: every rank is below it. -/
abbrev signBit : Nat := 0x8000000000000000

/-- A binary64 number: its sign, and its other 63 bits as one number. -/
structure Binary64 where
  negative : Bool
  rank : Fin signBit
  deriving DecidableEq, Repr, Inhabited

namespace Binary64

/-! ## 1. Bits -/

/-- The number with the given 64 bits. -/
def ofBits (bits : Nat) : Binary64 :=
  ⟨decide (bits / signBit % 2 = 1), ⟨bits % signBit, Nat.mod_lt _ (by decide)⟩⟩

/-- The 64 bits of a number. -/
def toBits (x : Binary64) : Nat := (if x.negative then signBit else 0) + x.rank.val

theorem ofBits_toBits (x : Binary64) : ofBits x.toBits = x := by
  obtain ⟨negative, rank, h⟩ := x
  unfold ofBits toBits
  rw [mk.injEq, Fin.mk.injEq]
  cases negative
  · rw [if_neg Bool.false_ne_true, Nat.zero_add, Nat.div_eq_of_lt h, Nat.mod_eq_of_lt h]
    exact ⟨rfl, rfl⟩
  · rw [if_pos rfl, Nat.add_div_left _ (by decide), Nat.div_eq_of_lt h, Nat.add_mod_left,
      Nat.mod_eq_of_lt h]
    exact ⟨rfl, rfl⟩

/-- The magnitudes of one exponent: `2 ^ 52`. -/
abbrev binade : Nat := 0x10000000000000

/-- The rank of infinity: every exponent below the last is finite. -/
abbrev infinityRank : Nat := 2047 * binade

/-- Neither infinite nor not a number. -/
def isFinite (x : Binary64) : Bool := x.rank.val < infinityRank

def isNaN (x : Binary64) : Bool := infinityRank < x.rank.val

def isZero (x : Binary64) : Bool := x.rank.val == 0

def zero : Binary64 := ⟨false, ⟨0, by decide⟩⟩

def infinity : Binary64 := ⟨false, ⟨infinityRank, by decide⟩⟩

/-- The number that is not one. -/
def nan : Binary64 := ⟨false, ⟨infinityRank + binade / 2, by decide⟩⟩

def neg (x : Binary64) : Binary64 := ⟨!x.negative, x.rank⟩

/-! ## 2. Magnitudes in units -/

/-- Units to one. -/
abbrev unitsPerOne : Nat := 1 <<< 1074

/-- How often the distance between neighbours has doubled up to this rank. -/
def doublings (rank : Nat) : Nat := rank / binade - 1

/-- The magnitude of a finite rank, in units. -/
def units (rank : Nat) : Nat := (rank - doublings rank * binade) <<< doublings rank

/-- The whole number nearest to a fraction, the even one of two. -/
def roundToEven (numerator denominator : Nat) : Nat :=
  let whole := numerator / denominator
  let rest := numerator % denominator
  if 2 * rest < denominator then whole
  else if denominator < 2 * rest then whole + 1
  else whole + whole % 2

/-- The rank nearest to a fraction of units, were there no greatest one. -/
def nearestRank (numerator denominator : Nat) : Nat :=
  let d := Nat.log2 (numerator / denominator) - 52
  d * binade + roundToEven numerator (denominator <<< d)

/-- The number of this sign whose magnitude is nearest to a fraction of units; infinity from half a
    step above the greatest finite magnitude. -/
def nearest (negative : Bool) (numerator denominator : Nat) : Binary64 :=
  ⟨negative, ⟨min (nearestRank numerator denominator) infinityRank,
    Nat.lt_of_le_of_lt (Nat.min_le_right ..) (by decide)⟩⟩

/-! ## 3. Whole numbers and equality of value -/

/-- The whole number that a number is, if it is one. -/
def toInt? (x : Binary64) : Option Int :=
  let u := units x.rank.val
  if x.isFinite && u % unitsPerOne == 0 then
    let n : Int := u / unitsPerOne
    some (if x.negative then -n else n)
  else none

/-- Equality of value: the two zeros are equal, and what is not a number equals nothing. -/
def same (x y : Binary64) : Bool :=
  !x.isNaN && !y.isNaN && (x == y || (x.isZero && y.isZero))

end Binary64

end Sigil

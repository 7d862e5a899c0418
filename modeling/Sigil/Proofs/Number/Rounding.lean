import Mathlib.Algebra.Group.Nat.Defs
import Sigil.Number.Binary64

/-!
# Rounding to the nearest rank

Two facts about `nearestRank`: it depends on the value of a fraction only, and it returns the rank
of every magnitude that has one. For the second, the magnitude of a rank is taken apart as a
significand below `2 ^ 53` that has been doubled so many times; either it was never doubled, or the
significand has its leading bit.
-/

namespace Sigil.Binary64

/-! ## 1. The value of a fraction -/

theorem roundToEven_mul_right (n d : Nat) {k : Nat} (hk : 0 < k) :
    roundToEven (n * k) (d * k) = roundToEven n d := by
  have hlow : 2 * (n % d * k) < d * k ↔ 2 * (n % d) < d := by
    rw [← Nat.mul_assoc]
    exact Nat.mul_lt_mul_right hk
  have hhigh : d * k < 2 * (n % d * k) ↔ d < 2 * (n % d) := by
    rw [← Nat.mul_assoc]
    exact Nat.mul_lt_mul_right hk
  unfold roundToEven
  rw [Nat.mul_div_mul_right n d hk, Nat.mul_mod_mul_right]
  simp only [hlow, hhigh]

theorem nearestRank_eq (n d : Nat) :
    nearestRank n d = (Nat.log2 (n / d) - 52) * binade +
      roundToEven n (d * 2 ^ (Nat.log2 (n / d) - 52)) := by
  unfold nearestRank
  dsimp only
  rw [Nat.shiftLeft_eq]

/-- A common factor does not change what a fraction rounds to. -/
theorem nearestRank_mul_right (n d : Nat) {k : Nat} (hk : 0 < k) :
    nearestRank (n * k) (d * k) = nearestRank n d := by
  rw [nearestRank_eq, nearestRank_eq, Nat.mul_div_mul_right n d hk, Nat.mul_right_comm,
    roundToEven_mul_right _ _ hk]

theorem nearest_mul_right (negative : Bool) (n d : Nat) {k : Nat} (hk : 0 < k) :
    nearest negative (n * k) (d * k) = nearest negative n d := by
  unfold nearest
  simp only [nearestRank_mul_right n d hk]

/-- A whole number rounds to itself. -/
theorem roundToEven_mul_self (n : Nat) {d : Nat} (hd : 0 < d) : roundToEven (n * d) d = n := by
  unfold roundToEven
  rw [Nat.mul_div_cancel n hd, Nat.mul_mod_left, if_pos (Nat.mul_zero 2 ▸ hd)]

/-! ## 2. Exact magnitudes -/

/-- The significand of a rank: its magnitude before it is doubled. -/
def significand (rank : Nat) : Nat := rank - doublings rank * binade

theorem units_eq (rank : Nat) : units rank = significand rank * 2 ^ doublings rank := by
  unfold units significand
  rw [Nat.shiftLeft_eq]

theorem significand_lt (rank : Nat) : significand rank < 2 ^ 53 := by
  unfold significand doublings binade
  omega

theorem le_significand {rank : Nat} (h : 0 < doublings rank) : 2 ^ 52 ≤ significand rank := by
  unfold doublings binade at h
  unfold significand doublings binade
  omega

theorem significand_add (rank : Nat) : doublings rank * binade + significand rank = rank := by
  unfold significand doublings binade
  omega

/-- A positive rank has a positive magnitude. -/
theorem units_pos {rank : Nat} (h : rank ≠ 0) : 0 < units rank := by
  have hsignificand : 0 < significand rank := by
    have hadd := significand_add rank
    by_cases hd : doublings rank = 0
    · rw [hd, Nat.zero_mul, Nat.zero_add] at hadd
      omega
    · have hle := le_significand (Nat.pos_of_ne_zero hd)
      omega
  rw [units_eq]
  exact Nat.mul_pos hsignificand (Nat.two_pow_pos _)

theorem doublings_le {rank : Nat} (h : rank < infinityRank) : doublings rank ≤ 2045 := by
  unfold infinityRank binade at h
  unfold doublings binade
  omega

theorem units_lt_of_doublings_le {rank most : Nat} (h : doublings rank ≤ most) :
    units rank < 2 ^ 53 * 2 ^ most := by
  calc units rank
      = significand rank * 2 ^ doublings rank := units_eq rank
    _ < 2 ^ 53 * 2 ^ doublings rank :=
      Nat.mul_lt_mul_of_pos_right (significand_lt rank) (Nat.two_pow_pos _)
    _ ≤ 2 ^ 53 * 2 ^ most := Nat.mul_le_mul_left _ (Nat.pow_le_pow_right (by decide) h)

/-- The finite magnitudes are below `2 ^ 1024`, which is `2 ^ 2098` units. -/
theorem units_lt {rank : Nat} (h : rank < infinityRank) : units rank < 2 ^ 53 * 2 ^ 2045 := by
  have hlt := units_lt_of_doublings_le (doublings_le h)
  exact hlt

/-- The number of doublings shows in the length of the magnitude. -/
theorem log2_units (rank : Nat) : Nat.log2 (units rank) - 52 = doublings rank := by
  have hlt : significand rank < 2 ^ 53 := significand_lt rank
  rw [units_eq]
  -- the lowest binade has no leading bit, and every other has it at the fifty-third place
  by_cases hd : doublings rank = 0
  · rw [hd, Nat.pow_zero, Nat.mul_one]
    by_cases hs : significand rank = 0
    · rw [hs]
      rfl
    · have hlog : Nat.log2 (significand rank) < 53 := (Nat.log2_lt hs).mpr hlt
      omega
  · have hle : 2 ^ 52 ≤ significand rank := le_significand (Nat.pos_of_ne_zero hd)
    have hpow : 0 < 2 ^ doublings rank := Nat.two_pow_pos _
    have hlog : Nat.log2 (significand rank * 2 ^ doublings rank) = 52 + doublings rank := by
      refine (Nat.log2_eq_iff ?_).mpr ⟨?_, ?_⟩
      · exact Nat.mul_ne_zero (by omega) (by omega)
      · rw [Nat.pow_add]
        exact Nat.mul_le_mul_right _ hle
      · rw [Nat.add_right_comm, Nat.pow_add]
        exact Nat.mul_lt_mul_of_pos_right hlt hpow
    omega

/-- The exact magnitude of a rank, as any fraction, rounds to that rank. -/
theorem nearestRank_units (rank : Nat) {d : Nat} (hd : 0 < d) :
    nearestRank (units rank * d) d = rank := by
  have hpow : 0 < 2 ^ doublings rank := Nat.two_pow_pos _
  have hexact : units rank * d = significand rank * (d * 2 ^ doublings rank) := by
    rw [units_eq, Nat.mul_assoc, Nat.mul_comm d]
  rw [nearestRank_eq, Nat.mul_div_cancel _ hd, log2_units, hexact,
    roundToEven_mul_self _ (Nat.mul_pos hd hpow), significand_add]

/-- The exact magnitude of a finite number, as any fraction, is read as that number. -/
theorem nearest_units {x : Binary64} (hx : x.isFinite = true) {d : Nat} (hd : 0 < d) :
    nearest x.negative (units x.rank.val * d) d = x := by
  obtain ⟨negative, rank, hrank⟩ := x
  have hfinite : rank < infinityRank := of_decide_eq_true hx
  unfold nearest
  simp only [nearestRank_units rank hd, Nat.min_eq_left (Nat.le_of_lt hfinite)]

end Sigil.Binary64

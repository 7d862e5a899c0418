import Sigil.Proofs.Number.Decimal

/-!
# The nearest number

A value is measured in units, with its sign. The number nearest to it is the finite number that no
other one is closer than, and of two at the same distance the one of even rank (`NearestTo`).
Rounding finds it wherever it stays finite (`nearestTo_nearest`). A whole number is read like that
as long as it is below half a step above the greatest finite magnitude (`nearestTo_toBinary64`), and
as infinity from there on.

Ranks of one binade are as many multiples of one power of two. Among the multiples rounding is
nearest (`roundToEven_closest`); a rank of a lower binade is no closer, as the least magnitude
of this one lies between.
-/

namespace Sigil.Binary64

/-! ## 1. Distances -/

/-- The value of a number in units. -/
def inUnits (x : Binary64) : Int :=
  if x.negative then -(units x.rank.val : Int) else units x.rank.val

/-- How far a number is from a value in units. -/
def distance (x : Binary64) (target : Int) : Nat := (x.inUnits - target).natAbs

/-- No finite number is closer to this value in units, and another one at the same
    distance is odd. -/
structure NearestTo (x : Binary64) (target : Int) : Prop where
  finite : x.isFinite = true
  closest : ∀ y : Binary64, y.isFinite = true → x.distance target ≤ y.distance target
  even : ∀ y : Binary64, y.isFinite = true → y.distance target = x.distance target →
    y.inUnits = x.inUnits ∨ x.rank.val % 2 = 0

/-- A finite number is the nearest one to its own value. -/
theorem nearestTo_inUnits {x : Binary64} (hx : x.isFinite = true) : x.NearestTo x.inUnits where
  finite := hx
  closest y _ := by
    unfold distance
    rw [Int.sub_self]
    exact Nat.zero_le _
  even y _ h := by
    unfold distance at h
    exact .inl (by omega)

/-! ## 2. Rounding to a multiple -/

/-- The multiple that is rounded to is at most half a step away, and even if it is exactly that. -/
theorem roundToEven_bounds (n : Nat) {d : Nat} (hd : 0 < d) :
    2 * n ≤ 2 * (roundToEven n d * d) + d ∧ 2 * (roundToEven n d * d) ≤ 2 * n + d ∧
      (2 * n = 2 * (roundToEven n d * d) + d ∨ 2 * (roundToEven n d * d) = 2 * n + d →
        roundToEven n d % 2 = 0) := by
  have hsplit : n / d * d + n % d = n := Nat.div_add_mod' n d
  have hrest : n % d < d := Nat.mod_lt n hd
  have hnext : (n / d + 1) * d = n / d * d + d := Nat.succ_mul _ _
  unfold roundToEven
  dsimp only
  -- below the middle, above it, or on it, where the even one of the two is taken
  split
  · omega
  · split
    · rw [hnext]
      omega
    · rcases Nat.mod_two_eq_zero_or_one (n / d) with heven | hodd
      · rw [heven, Nat.add_zero]
        omega
      · rw [hodd, hnext]
        omega

/-- No multiple is closer than the one that is rounded to. -/
theorem roundToEven_closest (n j : Nat) {d : Nat} (hd : 0 < d) :
    ((roundToEven n d * d : Nat) - n : Int).natAbs ≤ ((j * d : Nat) - n : Int).natAbs ∧
      (((j * d : Nat) - n : Int).natAbs = ((roundToEven n d * d : Nat) - n : Int).natAbs →
        j = roundToEven n d ∨ roundToEven n d % 2 = 0) := by
  obtain ⟨hlow, hhigh, htie⟩ := roundToEven_bounds n hd
  generalize roundToEven n d = q at hlow hhigh htie ⊢
  rcases Nat.lt_trichotomy j q with hlt | rfl | hgt
  · have hstep : j * d + d ≤ q * d := Nat.succ_mul j d ▸ Nat.mul_le_mul_right d hlt
    omega
  · exact ⟨Nat.le_refl _, fun _ => .inl rfl⟩
  · have hstep : q * d + d ≤ j * d := Nat.succ_mul q d ▸ Nat.mul_le_mul_right d hgt
    omega

/-! ## 3. The binade of a magnitude -/

/-- How often a whole magnitude is halved before it is rounded. -/
def halvings (n : Nat) : Nat := Nat.log2 n - 52

theorem lt_two_pow_halvings (n : Nat) : n < 2 ^ 53 * 2 ^ halvings n := by
  by_cases hn : n = 0
  · rw [hn]
    exact Nat.mul_pos (Nat.two_pow_pos _) (Nat.two_pow_pos _)
  · rw [← Nat.pow_add]
    exact (Nat.log2_lt hn).mp (by unfold halvings; omega)

theorem two_pow_halvings_le {n : Nat} (h : 0 < halvings n) : 2 ^ 52 * 2 ^ halvings n ≤ n := by
  unfold halvings at h ⊢
  have hn : n ≠ 0 := by
    rintro rfl
    exact absurd h (by decide)
  rw [← Nat.pow_add]
  exact (Nat.le_log2 hn).mp (by omega)

/-- What a whole magnitude is rounded to, in steps of its binade. -/
def steps (n : Nat) : Nat := roundToEven n (2 ^ halvings n)

theorem nearestRank_one (n : Nat) : nearestRank n 1 = halvings n * binade + steps n := by
  rw [nearestRank_eq, Nat.div_one, Nat.one_mul]
  rfl

theorem steps_le (n : Nat) : steps n ≤ 2 ^ 53 := by
  obtain ⟨-, hhigh, -⟩ := roundToEven_bounds n (Nat.two_pow_pos (halvings n))
  have hlt := lt_two_pow_halvings n
  have hpos : 0 < 2 ^ halvings n := Nat.two_pow_pos _
  refine Nat.le_of_not_lt fun hgt => ?_
  have hstep : (2 ^ 53 + 1) * 2 ^ halvings n ≤ steps n * 2 ^ halvings n :=
    Nat.mul_le_mul_right _ hgt
  rw [Nat.add_mul] at hstep
  unfold steps at hstep
  omega

theorem le_steps {n : Nat} (h : 0 < halvings n) : 2 ^ 52 ≤ steps n := by
  obtain ⟨hlow, -, -⟩ := roundToEven_bounds n (Nat.two_pow_pos (halvings n))
  have hle := two_pow_halvings_le h
  have hpos : 0 < 2 ^ halvings n := Nat.two_pow_pos _
  refine Nat.le_of_not_lt fun hlt => ?_
  have hstep : (steps n + 1) * 2 ^ halvings n ≤ 2 ^ 52 * 2 ^ halvings n :=
    Nat.mul_le_mul_right _ hlt
  rw [Nat.add_mul] at hstep
  unfold steps at hstep
  omega

/-- The rank that a number of steps makes has just these steps; as many as `2 ^ 53` are the first
    rank of the next binade. -/
theorem units_of_steps {d q : Nat} (hhigh : q ≤ 2 ^ 53) (hlow : d = 0 ∨ 2 ^ 52 ≤ q) :
    units (d * binade + q) = q * 2 ^ d := by
  -- the last step of a binade is the first of the next, and counts twice as much
  rcases Nat.lt_or_eq_of_le hhigh with hlt | rfl
  · have hd : doublings (d * binade + q) = d := by
      unfold doublings binade
      omega
    rw [units_eq, significand, hd, Nat.add_sub_cancel_left]
  · have hd : doublings (d * binade + 2 ^ 53) = d + 1 := by
      unfold doublings binade
      omega
    have hs : significand (d * binade + 2 ^ 53) = 2 ^ 52 := by
      unfold significand
      rw [hd]
      unfold binade
      omega
    calc units (d * binade + 2 ^ 53)
        = 2 ^ 52 * 2 ^ (d + 1) := by rw [units_eq, hs, hd]
      _ = 2 ^ 53 * 2 ^ d := by rw [← Nat.pow_add, ← Nat.pow_add, Nat.add_comm d 1, ← Nat.add_assoc]

theorem units_nearestRank (n : Nat) : units (nearestRank n 1) = steps n * 2 ^ halvings n := by
  rw [nearestRank_one]
  refine units_of_steps (steps_le n) ?_
  by_cases h : halvings n = 0
  · exact .inl h
  · exact .inr (le_steps (Nat.pos_of_ne_zero h))

/-! ## 4. The nearest rank -/

/-- No rank is closer to a whole magnitude than the one that it is rounded to. -/
theorem nearestRank_closest (n rank : Nat) :
    ((units (nearestRank n 1) : Int) - n).natAbs ≤ ((units rank : Int) - n).natAbs ∧
      (((units rank : Int) - n).natAbs = ((units (nearestRank n 1) : Int) - n).natAbs →
        units rank = units (nearestRank n 1) ∨ nearestRank n 1 % 2 = 0) := by
  -- ties are broken by the parity of the steps, as a binade has an even number of them
  have hpos : 0 < 2 ^ halvings n := Nat.two_pow_pos _
  have heven : nearestRank n 1 % 2 = steps n % 2 := by
    rw [nearestRank_one]
    unfold binade
    omega
  rw [units_nearestRank, heven]
  by_cases hd : halvings n ≤ doublings rank
  · -- a multiple of the same power of two
    obtain ⟨k, hk⟩ := Nat.exists_eq_add_of_le hd
    have hunits : units rank = significand rank * 2 ^ k * 2 ^ halvings n := by
      rw [units_eq, hk, Nat.add_comm, Nat.pow_add, Nat.mul_assoc]
    obtain ⟨hle, htie⟩ := roundToEven_closest n (significand rank * 2 ^ k) hpos
    rw [hunits]
    exact ⟨hle, fun h => (htie h).imp_left fun heq => by rw [heq]; rfl⟩
  · -- a lower binade, whose magnitudes are below the least one of this
    have hhalved : 0 < halvings n := by omega
    have hleast := two_pow_halvings_le hhalved
    obtain ⟨hle, -⟩ := roundToEven_closest n (2 ^ 52) hpos
    have hbelow : units rank < 2 ^ 52 * 2 ^ halvings n := by
      have hfew : doublings rank ≤ halvings n - 1 := by omega
      have hlt := units_lt_of_doublings_le hfew
      have hpow : 2 ^ halvings n = 2 * 2 ^ (halvings n - 1) := by
        rw [← Nat.pow_succ']
        exact congrArg _ (by omega)
      omega
    unfold steps
    omega

theorem isFinite_nearest_iff {negative : Bool} {n d : Nat} :
    (nearest negative n d).isFinite = true ↔ nearestRank n d < infinityRank := by
  show decide (min (nearestRank n d) infinityRank < infinityRank) = true ↔ _
  rw [decide_eq_true_iff]
  refine ⟨fun h => Nat.lt_of_not_le fun hle => ?_,
    fun h => by rwa [Nat.min_eq_left (Nat.le_of_lt h)]⟩
  rw [Nat.min_eq_right hle] at h
  exact Nat.lt_irrefl _ h

/-- Magnitudes of opposite signs are apart by their sum. -/
theorem natAbs_signed_sub (negative negative' : Bool) (u n : Nat) :
    ((if negative then -(u : Int) else u) - (if negative' then -(n : Int) else n)).natAbs =
      if negative = negative' then ((u : Int) - n).natAbs else u + n := by
  cases negative <;> cases negative' <;> simp only [Bool.false_eq_true, Bool.true_eq_false, if_true,
    if_false] <;> omega

/-- **Rounding finds the nearest number**, as long as it stays finite. -/
theorem nearestTo_nearest {negative : Bool} {n : Nat} (h : (nearest negative n 1).isFinite = true) :
    (nearest negative n 1).NearestTo (if negative then -(n : Int) else n) := by
  have hrank : (nearest negative n 1).rank.val = nearestRank n 1 :=
    Nat.min_eq_left (Nat.le_of_lt (isFinite_nearest_iff.mp h))
  have hvalue : (nearest negative n 1).inUnits =
      if negative then -(units (nearestRank n 1) : Int) else units (nearestRank n 1) := by
    unfold inUnits
    rw [hrank]
    rfl
  -- a number of the other sign is no closer than zero
  obtain ⟨hzero, hzeroTie⟩ := nearestRank_closest n 0
  have hnone : units 0 = 0 := by decide
  rw [hnone] at hzero hzeroTie
  have hself : (nearest negative n 1).distance (if negative then -(n : Int) else n) =
      ((units (nearestRank n 1) : Int) - n).natAbs := by
    unfold distance
    rw [hvalue, natAbs_signed_sub, if_pos rfl]
  refine ⟨h, fun y _ => ?_, fun y _ heq => ?_⟩
  · obtain ⟨hle, -⟩ := nearestRank_closest n y.rank.val
    rw [hself, distance, inUnits, natAbs_signed_sub]
    split
    · exact hle
    · omega
  · obtain ⟨-, htie⟩ := nearestRank_closest n y.rank.val
    rw [hself, distance, inUnits, natAbs_signed_sub] at heq
    rw [hrank, hvalue, inUnits]
    split at heq
    · next hsign => exact (htie heq).imp_left fun hunits => by rw [hsign, hunits]
    · refine (hzeroTie (by omega)).imp_left fun hunits => ?_
      have hy : units y.rank.val = 0 := by omega
      rw [← hunits, hy]
      cases negative <;> cases y.negative <;> rfl

/-! ## 5. The range of the finite numbers -/

/-- A whole magnitude is rounded up to a binade from half a step below it on. -/
theorem nearestRank_lt_binade_iff (n d : Nat) :
    nearestRank n 1 < (d + 2) * binade ↔ 2 * n + 2 ^ d < 2 ^ 54 * 2 ^ d := by
  obtain ⟨hlow, hhigh, htie⟩ := roundToEven_bounds n (Nat.two_pow_pos (halvings n))
  have hsteps := steps_le n
  have hpos : 0 < 2 ^ d := Nat.two_pow_pos d
  rw [nearestRank_one]
  -- the binade of the number lies below, at or above the one in question
  rcases Nat.lt_trichotomy (halvings n) d with hbelow | heq | habove
  · have hpow : 2 * 2 ^ halvings n ≤ 2 ^ d :=
      Nat.pow_succ' ▸ Nat.pow_le_pow_right (by decide) hbelow
    have hn := lt_two_pow_halvings n
    refine iff_of_true ?_ (by omega)
    unfold binade
    omega
  · have hsteps' : halvings n * binade + steps n < (d + 2) * binade ↔ steps n < 2 ^ 53 := by
      unfold binade
      omega
    rw [hsteps']
    change steps n ≤ 2 ^ 53 at hsteps
    change 2 * n ≤ 2 * (steps n * _) + _ at hlow
    change 2 * (steps n * _) ≤ _ at hhigh
    change 2 * n = 2 * (steps n * _) + _ ∨ 2 * (steps n * _) = _ → steps n % 2 = 0 at htie
    rw [heq] at hlow hhigh htie
    rcases Nat.lt_or_eq_of_le hsteps with hlt | hmax
    · have hstep : (steps n + 1) * 2 ^ d ≤ 2 ^ 53 * 2 ^ d := Nat.mul_le_mul_right _ hlt
      rw [Nat.add_mul] at hstep
      refine iff_of_true hlt ?_
      by_cases hlast : steps n + 1 = 2 ^ 53
      · omega
      · have hstep' : (steps n + 2) * 2 ^ d ≤ 2 ^ 53 * 2 ^ d := Nat.mul_le_mul_right _ (by omega)
        rw [Nat.add_mul] at hstep'
        omega
    · rw [hmax] at hhigh ⊢
      refine iff_of_false (Nat.lt_irrefl _) ?_
      omega
  · have hpow : 2 * 2 ^ d ≤ 2 ^ halvings n :=
      Nat.pow_succ' ▸ Nat.pow_le_pow_right (by decide) habove
    have hhalved : 0 < halvings n := by omega
    have hn := two_pow_halvings_le hhalved
    have hleast := le_steps hhalved
    refine iff_of_false ?_ (by omega)
    unfold binade
    omega

/-- The least whole number that is not read as a finite one: half a step above the
    greatest of these. -/
@[irreducible] def wholeBound : Nat := 2 ^ 1024 - 2 ^ 970

/-- A whole number of units is in range below the bound. -/
theorem nearestRank_whole_lt_iff (k : Nat) :
    nearestRank (k * unitsPerOne) 1 < infinityRank ↔ k < wholeBound := by
  have hbinades : infinityRank = (2045 + 2) * binade := rfl
  have hhalf : 2 ^ 2045 = 2 ^ 971 * unitsPerOne := by decide +kernel
  have hend : 2 ^ 54 * 2 ^ 2045 = 2 ^ 1025 * unitsPerOne := by decide +kernel
  have hbound : 2 * wholeBound + 2 ^ 971 = 2 ^ 1025 := by decide +kernel
  have hpos : 0 < unitsPerOne := by decide +kernel
  rw [hbinades, nearestRank_lt_binade_iff, hend, hhalf, ← Nat.mul_assoc, ← Nat.add_mul,
    Nat.mul_lt_mul_right hpos, ← hbound]
  generalize 2 ^ 971 = half
  omega

/-- A whole number is read as the number nearest to it, or as infinity where its
    digits are too many. -/
theorem toBinary64_whole_eq (negative : Bool) (k : Nat) :
    Decimal.toBinary64 negative ⟨k, 0⟩ =
      if Decimal.order ⟨k, 0⟩ ≤ 310 then nearest negative (k * unitsPerOne) 1
      else ⟨negative, infinity.rank⟩ := by
  have hlow : -330 ≤ Decimal.order ⟨k, 0⟩ := by
    unfold Decimal.order
    dsimp only
    split <;> omega
  by_cases hhigh : Decimal.order ⟨k, 0⟩ ≤ 310
  · rw [if_pos hhigh, Decimal.toBinary64_of_order hlow hhigh, Decimal.unitFraction_eq]
    dsimp only
    rw [if_pos (Int.le_refl 0), Int.toNat_zero, Nat.pow_zero, Nat.mul_one]
  · rw [if_neg hhigh]
    unfold Decimal.toBinary64
    rw [if_neg (Int.not_lt.mpr hlow), if_pos (Int.not_le.mp hhigh)]

/-- **Below the bound a whole number is read as the nearest one.** -/
theorem nearestTo_toBinary64 (negative : Bool) {k : Nat} (h : k < wholeBound) :
    (Decimal.toBinary64 negative ⟨k, 0⟩).NearestTo
      (if negative then -((k * unitsPerOne : Nat) : Int) else (k * unitsPerOne : Nat)) := by
  have hplaces : wholeBound ≤ 10 ^ 310 := by decide +kernel
  have hone : k ≠ 0 → 10 ^ 0 ≤ k := fun hc => Nat.pos_of_ne_zero hc
  have horder : -330 ≤ Decimal.order ⟨k, 0⟩ ∧ Decimal.order ⟨k, 0⟩ ≤ 310 :=
    order_bounds hone (Nat.lt_of_lt_of_le h hplaces) (by decide) (by decide) (by decide)
  rw [toBinary64_whole_eq, if_pos horder.2]
  exact nearestTo_nearest (isFinite_nearest_iff.mpr ((nearestRank_whole_lt_iff k).mpr h))

/-- **From the bound on a whole number is read as infinity.** -/
theorem isFinite_toBinary64_of_le (negative : Bool) {k : Nat} (h : wholeBound ≤ k) :
    (Decimal.toBinary64 negative ⟨k, 0⟩).isFinite = false := by
  rw [toBinary64_whole_eq]
  split
  · rw [Bool.eq_false_iff]
    intro hfinite
    have hlt := (nearestRank_whole_lt_iff k).mp (isFinite_nearest_iff.mp hfinite)
    exact absurd h (Nat.not_le_of_lt hlt)
  · rfl

end Sigil.Binary64

import Sigil.Number.Shortest
import Sigil.Proofs.Number.Rounding

/-!
# Reading decimals

A decimal is read by its value: zeros moved between the coefficient and the exponent change nothing.
The exact decimal of a finite number reads as that number, and so does the shortest one, which is
either found by reading it or the exact one.
-/

namespace Sigil

namespace Decimal

open Binary64 (nearest units unitsPerOne)

/-! ## 1. Digits -/

/-- A factor of ten adds a zero to the digits. -/
theorem toDigits_mul_ten_pow {c : Nat} (hc : 0 < c) (i : Nat) :
    Nat.toDigits 10 (c * 10 ^ i) = Nat.toDigits 10 c ++ List.replicate i '0' := by
  induction i with
  | zero => rw [Nat.pow_zero, Nat.mul_one, List.replicate_zero, List.append_nil]
  | succ i ih =>
    have hpos : 0 < c * 10 ^ i := Nat.mul_pos hc (Nat.pow_pos (by decide))
    have hlast := Nat.toDigits_append_toDigits (b := 10) (by decide) hpos (d := 0) (by decide)
    have hfactor : 10 * (c * 10 ^ i) + 0 = c * 10 ^ (i + 1) := by
      rw [Nat.pow_succ, Nat.add_zero, Nat.mul_comm 10, Nat.mul_assoc]
    rw [hfactor, ih, Nat.toDigits_zero, List.append_assoc, ← List.replicate_succ'] at hlast
    exact hlast.symm

/-! ## 2. The value of a decimal -/

theorem unitFraction_eq (d : Decimal) :
    d.unitFraction = if 0 ≤ d.exponent then (d.coefficient * 10 ^ d.exponent.toNat * unitsPerOne, 1)
      else (d.coefficient * unitsPerOne, 10 ^ (-d.exponent).toNat) := rfl

/-- The sign is only carried along. -/
theorem toBinary64_eq (negative : Bool) (d : Decimal) :
    d.toBinary64 negative = ⟨negative, (d.toBinary64 false).rank⟩ := by
  unfold toBinary64
  split
  · rfl
  · split <;> rfl

/-- Between the bounds on the order, a decimal is read as the fraction it is. -/
theorem toBinary64_of_order {d : Decimal} (low : -330 ≤ d.order) (high : d.order ≤ 310)
    (negative : Bool) :
    d.toBinary64 negative = nearest negative d.unitFraction.1 d.unitFraction.2 := by
  unfold toBinary64
  rw [if_neg (by omega), if_neg (by omega)]

theorem order_mul_ten_pow (c i : Nat) (e : Int) :
    order ⟨c * 10 ^ i, e⟩ = order ⟨c, e + i⟩ := by
  unfold order
  dsimp only
  by_cases hc : c = 0
  · rw [hc, Nat.zero_mul, if_pos rfl, if_pos rfl]
  · have hpos : 0 < c := Nat.pos_of_ne_zero hc
    have hpow : 0 < 10 ^ i := Nat.pow_pos (by decide)
    have hne : c * 10 ^ i ≠ 0 := Nat.ne_of_gt (Nat.mul_pos hpos hpow)
    rw [if_neg hc, if_neg hne, toDigits_mul_ten_pow hpos, List.length_append, List.length_replicate]
    omega

/-- The fraction of a decimal with zeros moved to its exponent has the same value. -/
theorem nearest_unitFraction_mul_ten_pow (negative : Bool) (c i : Nat) (e : Int) :
    nearest negative (unitFraction ⟨c * 10 ^ i, e⟩).1 (unitFraction ⟨c * 10 ^ i, e⟩).2 =
      nearest negative (unitFraction ⟨c, e + i⟩).1 (unitFraction ⟨c, e + i⟩).2 := by
  rw [unitFraction_eq, unitFraction_eq]
  dsimp only
  by_cases he : 0 ≤ e
  · -- both are whole numbers
    have hsum : (e + i).toNat = i + e.toNat := by omega
    rw [if_pos he, if_pos (by omega), hsum, Nat.pow_add, ← Nat.mul_assoc]
  · by_cases hei : 0 ≤ e + i
    · -- the zeros are more than the places
      have hsum : i = (e + i).toNat + (-e).toNat := by omega
      have hnumerator : c * 10 ^ i * unitsPerOne =
          c * 10 ^ (e + i).toNat * unitsPerOne * 10 ^ (-e).toNat := by
        conv => lhs; rw [hsum, Nat.pow_add, ← Nat.mul_assoc, Nat.mul_right_comm]
      have hpow : 0 < 10 ^ (-e).toNat := Nat.pow_pos (by decide)
      have hscaled :=
        Binary64.nearest_mul_right negative (c * 10 ^ (e + i).toNat * unitsPerOne) 1 hpow
      rw [Nat.one_mul] at hscaled
      rw [if_neg he, if_pos hei]
      dsimp only
      rw [hnumerator]
      exact hscaled
    · -- the zeros are some of the places
      have hsum : (-e).toNat = (-(e + i)).toNat + i := by omega
      have hpow : 0 < 10 ^ i := Nat.pow_pos (by decide)
      rw [if_neg he, if_neg hei]
      dsimp only
      rw [hsum, Nat.pow_add, Nat.mul_right_comm, Binary64.nearest_mul_right _ _ _ hpow]

/-- Zeros moved from the coefficient to the exponent change nothing. -/
theorem toBinary64_mul_ten_pow (negative : Bool) (c i : Nat) (e : Int) :
    toBinary64 negative ⟨c * 10 ^ i, e⟩ = toBinary64 negative ⟨c, e + i⟩ := by
  unfold toBinary64
  rw [order_mul_ten_pow, nearest_unitFraction_mul_ten_pow]

end Decimal

namespace Binary64

/-! ## 3. Exact decimals -/

/-- Bounds on the coefficient keep the order between its bounds. -/
theorem order_bounds {c low high : Nat} {e : Int} (hlow : c ≠ 0 → 10 ^ low ≤ c)
    (hhigh : c < 10 ^ high) (hpos : 0 < high) (helow : -330 ≤ e + low) (hehigh : e + high ≤ 310) :
    -330 ≤ Decimal.order ⟨c, e⟩ ∧ Decimal.order ⟨c, e⟩ ≤ 310 := by
  unfold Decimal.order
  dsimp only
  by_cases hc : c = 0
  · rw [if_pos hc]
    decide
  · rw [if_neg hc]
    -- a number between two powers of ten has its number of digits between the two exponents
    have hle : (Nat.toDigits 10 c).length ≤ high :=
      (Nat.length_toDigits_le_iff (by decide) hpos).mpr hhigh
    have hone : 0 < (Nat.toDigits 10 c).length := Nat.length_toDigits_pos
    have hge : low ≤ (Nat.toDigits 10 c).length := by
      by_cases hshort : (Nat.toDigits 10 c).length < low
      · have hlt : c < 10 ^ (Nat.toDigits 10 c).length :=
          (Nat.length_toDigits_le_iff (by decide) hone).mp (Nat.le_refl _)
        have hpow : 10 ^ (Nat.toDigits 10 c).length ≤ 10 ^ low :=
          Nat.pow_le_pow_right (by decide) (Nat.le_of_lt hshort)
        have hle' := hlow hc
        omega
      · omega
    omega

/-- A decimal whose fraction is the exact magnitude of a finite number is read as that number. -/
theorem toBinary64_of_unitFraction {x : Binary64} (hx : x.isFinite = true) {d : Decimal}
    {denominator : Nat} (horder : -330 ≤ d.order ∧ d.order ≤ 310) (hpos : 0 < denominator)
    (hfraction : d.unitFraction = (units x.rank.val * denominator, denominator)) :
    d.toBinary64 x.negative = x := by
  rw [Decimal.toBinary64_of_order horder.1 horder.2, hfraction]
  exact nearest_units hx hpos

theorem exactDecimal_eq (rank : Nat) : exactDecimal rank = ⟨units rank * 5 ^ 1074, -1074⟩ := by
  have hpow : ∀ b n : Nat, Nat.pow b n = b ^ n := fun _ _ => rfl
  unfold exactDecimal
  simp only [hpow]

/-- The exact decimal of a finite number is read as that number. -/
theorem exactDecimal_toBinary64 {x : Binary64} (hx : x.isFinite = true) :
    (exactDecimal x.rank.val).toBinary64 x.negative = x := by
  have hfinite : x.rank.val < infinityRank := of_decide_eq_true hx
  have horder : -330 ≤ (exactDecimal x.rank.val).order ∧ (exactDecimal x.rank.val).order ≤ 310 := by
    -- the smallest positive number and the largest finite one bound the order, far inside the
    -- limits
    have hlow : 10 ^ 744 ≤ 5 ^ 1074 := by decide +kernel
    have hhigh : 2 ^ 53 * 2 ^ 2045 * 5 ^ 1074 ≤ 10 ^ 1384 := by decide +kernel
    have hplace : 0 < 5 ^ 1074 := by decide +kernel
    have hbelow : units x.rank.val * 5 ^ 1074 < 2 ^ 53 * 2 ^ 2045 * 5 ^ 1074 :=
      Nat.mul_lt_mul_of_pos_right (units_lt hfinite) hplace
    have habove : units x.rank.val * 5 ^ 1074 ≠ 0 → 10 ^ 744 ≤ units x.rank.val * 5 ^ 1074 := by
      intro hc
      have hunits : 0 < units x.rank.val := Nat.pos_of_ne_zero (Nat.mul_ne_zero_iff.mp hc).1
      exact Nat.le_trans hlow (Nat.le_mul_of_pos_left _ hunits)
    rw [exactDecimal_eq]
    exact order_bounds habove (Nat.lt_of_lt_of_le hbelow hhigh) (by decide) (by decide) (by decide)
  have hfraction : (exactDecimal x.rank.val).unitFraction =
      (units x.rank.val * 10 ^ 1074, 10 ^ 1074) := by
    -- one is 2 ^ 1074 units, which with the fives makes the 1074 places
    have hten : 5 ^ 1074 * unitsPerOne = 10 ^ 1074 := by decide +kernel
    have hplaces : (-(-1074 : Int)).toNat = 1074 := rfl
    rw [exactDecimal_eq, Decimal.unitFraction_eq]
    dsimp only
    rw [if_neg (by decide), hplaces, Nat.mul_assoc, hten]
  exact toBinary64_of_unitFraction hx horder (by decide +kernel) hfraction

/-! ## 4. The shortest decimal -/

theorem reads_iff {rank : Nat} {d : Decimal} : reads rank d = true ↔
    (d.toBinary64 false).rank.val = rank := by
  unfold reads
  exact beq_iff_eq

/-- A neighbour that is found reads back. -/
theorem reads_of_neighbour? {rank dropped : Nat} {exact found : Decimal}
    (h : neighbour? rank exact dropped = some found) : reads rank found = true := by
  unfold neighbour? at h
  dsimp only at h
  split at h
  · next hlow hhigh =>
    cases h
    split
    · exact hlow
    · exact hhigh
  · next hlow _ =>
    cases h
    exact hlow
  · next _ hhigh =>
    cases h
    exact hhigh
  · cases h

/-- **The shortest decimal of a finite number is read as that number.** -/
theorem shortest_toBinary64 {x : Binary64} (hx : x.isFinite = true) :
    (shortest x.rank.val).toBinary64 x.negative = x := by
  have hexact := exactDecimal_toBinary64 hx
  unfold shortest
  dsimp only
  cases hfound : (List.range' 1 17).findSome? fun n =>
      neighbour? x.rank.val (exactDecimal x.rank.val)
        ((Nat.toDigits 10 (exactDecimal x.rank.val).coefficient).length - n) with
  -- if no decimal of up to seventeen digits reads back, the exact one stands in
  | none => exact hexact
  | some found =>
    obtain ⟨n, _, hneighbour⟩ := List.exists_of_findSome?_eq_some hfound
    have hreads : (found.toBinary64 false).rank.val = x.rank.val :=
      reads_iff.mp (reads_of_neighbour? hneighbour)
    rw [Option.getD_some, Decimal.toBinary64_eq]
    obtain ⟨negative, rank⟩ := x
    exact congrArg (Binary64.mk negative) (Fin.ext hreads)

end Binary64

end Sigil

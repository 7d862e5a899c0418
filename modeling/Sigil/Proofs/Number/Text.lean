import Sigil.Proofs.Number.Numeral

/-!
# The text of a number reads back

The notation writes a finite number as a numeral that stands for this number, but for the
sign of zero. A small whole number is written by its exact digits; any other number by its
shortest digits in positional form, where the point and the zeros around the digits do not
change what they stand for.
-/

namespace Sigil

open Text (isDigit)

/-! ## 1. Digits -/

theorem isDigit_of_mem_toDigits {n : Nat} {c : Char} (hc : c ∈ Nat.toDigits 10 n) :
    isDigit c = true := by
  have h : c.isDigit = true := Nat.isDigit_of_mem_toDigits (by decide) (by decide) hc
  unfold Char.isDigit at h
  unfold isDigit
  simp only [Bool.and_eq_true, decide_eq_true_eq] at h ⊢
  exact h

theorem isDigit_of_mem_zeros {n : Nat} {c : Char} (hc : c ∈ List.replicate n '0') :
    isDigit c = true := by
  rw [List.eq_of_mem_replicate hc]
  rfl

/-- A list is what stays of it without the zeros at its end, and those zeros. -/
theorem exists_zeros (ds : List Char) :
    ∃ n, ds = (ds.reverse.dropWhile (· == '0')).reverse ++ List.replicate n '0' := by
  have hzeros : ds.reverse.takeWhile (· == '0') =
      List.replicate (ds.reverse.takeWhile (· == '0')).length '0' := by
    refine List.eq_replicate_of_mem fun c hc => ?_
    exact beq_iff_eq.mp (List.all_eq_true.mp List.all_takeWhile c hc)
  refine ⟨(ds.reverse.takeWhile (· == '0')).length, ?_⟩
  have hsplit :=
    congrArg List.reverse (List.takeWhile_append_dropWhile (p := (· == '0')) (l := ds.reverse))
  rw [List.reverse_append, List.reverse_reverse, hzeros, List.reverse_replicate] at hsplit
  exact hsplit.symm

namespace Decimal.Digits

/-- The decimal that digits and a point stand for. -/
def toDecimal (ds : Digits) : Decimal :=
  ⟨Nat.ofDigitChars 10 ds.digits 0, ds.point - ds.digits.length⟩

/-! ## 2. Positional form -/

variable {ds : Digits}

/-- Digits with zeros behind them are the same digits times a power of ten. -/
theorem ofDigitChars_append_zeros (cs : List Char) (n : Nat) :
    Nat.ofDigitChars 10 (cs ++ List.replicate n '0') 0 = Nat.ofDigitChars 10 cs 0 * 10 ^ n := by
  rw [Nat.ofDigitChars_append, Nat.ofDigitChars_replicate_zero, Nat.mul_comm]

/-- A whole number, with any number of zeros after the point. -/
theorem exists_numeral_whole (hne : ds.digits ≠ []) (hdigits : ∀ c ∈ ds.digits, isDigit c = true)
    (hpoint : (ds.digits.length : Int) ≤ ds.point) (places : Nat) (negative : Bool) :
    ∃ m : Numeral, m.negative = negative ∧
      m.magnitude = ds.positional ++ Numeral.pointed (List.replicate places '0') ∧
      m.value = ds.toDecimal.toBinary64 negative := by
  have hlength : 0 < ds.digits.length := List.length_pos_iff.mpr hne
  -- zeros fill the whole part up to the point, and the places after it
  have hwhole : ∀ c ∈ ds.digits ++ List.replicate (ds.point - ds.digits.length).toNat '0',
      isDigit c = true := by
    intro c hc
    rcases List.mem_append.mp hc with hc | hc
    · exact hdigits c hc
    · exact isDigit_of_mem_zeros hc
  refine ⟨⟨negative, ds.digits ++ List.replicate (ds.point - ds.digits.length).toNat '0',
    List.replicate places '0', List.append_ne_nil_of_left_ne_nil hne _, hwhole,
    fun c hc => isDigit_of_mem_zeros hc⟩, rfl, ?_, ?_⟩
  · unfold positional Numeral.magnitude
    dsimp only
    rw [if_neg (by omega), if_pos hpoint]
  · unfold Numeral.value Decimal.ofDigits
    dsimp only
    rw [List.append_assoc, List.replicate_append_replicate, ofDigitChars_append_zeros,
      toBinary64_mul_ten_pow, List.length_replicate]
    -- what the zeros multiply by, the places divide by again
    have hexponent : -(places : Int) + ((ds.point - ds.digits.length).toNat + places : Nat) =
        ds.point - ds.digits.length := by omega
    rw [hexponent]
    rfl

/-- A number below one: its digits behind a zero, a point, and further zeros. -/
theorem exists_numeral_below_one (hne : ds.digits ≠ [])
    (hdigits : ∀ c ∈ ds.digits, isDigit c = true) (hpoint : ds.point ≤ 0) (negative : Bool) :
    ∃ m : Numeral, m.negative = negative ∧ m.magnitude = ds.positional ∧
      m.value = ds.toDecimal.toBinary64 negative := by
  have hfraction : ∀ c ∈ List.replicate (-ds.point).toNat '0' ++ ds.digits, isDigit c = true := by
    intro c hc
    rcases List.mem_append.mp hc with hc | hc
    · exact isDigit_of_mem_zeros hc
    · exact hdigits c hc
  refine ⟨⟨negative, ['0'], List.replicate (-ds.point).toNat '0' ++ ds.digits, List.cons_ne_nil _ _,
    List.forall_mem_singleton.mpr rfl, hfraction⟩, rfl, ?_, ?_⟩
  · unfold positional Numeral.magnitude
    dsimp only
    rw [Numeral.pointed_of_ne_nil (List.append_ne_nil_of_right_ne_nil _ hne), if_pos hpoint]
    rfl
  · unfold Numeral.value Decimal.ofDigits toDecimal
    dsimp only
    have hzeros : Nat.ofDigitChars 10 ['0'] 0 = 0 := rfl
    rw [Nat.ofDigitChars_append, hzeros, Nat.ofDigitChars_append, Nat.ofDigitChars_replicate_zero,
      Nat.mul_zero, List.length_append, List.length_replicate]
    have hexponent : -(((-ds.point).toNat + ds.digits.length : Nat) : Int) =
        ds.point - ds.digits.length := by omega
    rw [hexponent]

/-- A number whose point stands among its digits. -/
theorem exists_numeral_split (hdigits : ∀ c ∈ ds.digits, isDigit c = true) (hlow : 0 < ds.point)
    (hhigh : ds.point < ds.digits.length) (negative : Bool) :
    ∃ m : Numeral, m.negative = negative ∧ m.magnitude = ds.positional ∧
      m.value = ds.toDecimal.toBinary64 negative := by
  -- the point stands strictly among the digits, so neither part is empty
  have hwhole : ds.digits.take ds.point.toNat ≠ [] := by
    refine List.length_pos_iff.mp ?_
    rw [List.length_take]
    omega
  have hfraction : ds.digits.drop ds.point.toNat ≠ [] := by
    refine List.length_pos_iff.mp ?_
    rw [List.length_drop]
    omega
  refine ⟨⟨negative, ds.digits.take ds.point.toNat, ds.digits.drop ds.point.toNat, hwhole,
    fun c hc => hdigits c (List.mem_of_mem_take hc),
    fun c hc => hdigits c (List.mem_of_mem_drop hc)⟩, rfl, ?_, ?_⟩
  · unfold positional Numeral.magnitude
    dsimp only
    rw [Numeral.pointed_of_ne_nil hfraction, if_neg (by omega), if_neg (by omega)]
  · unfold Numeral.value Decimal.ofDigits toDecimal
    dsimp only
    rw [List.take_append_drop, List.length_drop]
    have hexponent : -((ds.digits.length - ds.point.toNat : Nat) : Int) =
        ds.point - ds.digits.length := by omega
    rw [hexponent]

/-- Digits in positional form are a numeral that stands for their decimal. -/
theorem exists_numeral_positional (hne : ds.digits ≠ [])
    (hdigits : ∀ c ∈ ds.digits, isDigit c = true) (negative : Bool) :
    ∃ m : Numeral, m.negative = negative ∧ m.magnitude = ds.positional ∧
      m.value = ds.toDecimal.toBinary64 negative := by
  by_cases hlow : ds.point ≤ 0
  · exact exists_numeral_below_one hne hdigits hlow negative
  · by_cases hhigh : (ds.digits.length : Int) ≤ ds.point
    · obtain ⟨m, hm, hmagnitude, hvalue⟩ := exists_numeral_whole hne hdigits hhigh 0 negative
      rw [List.replicate_zero, Numeral.pointed, List.append_nil] at hmagnitude
      exact ⟨m, hm, hmagnitude, hvalue⟩
    · exact exists_numeral_split hdigits (by omega) (by omega) negative

end Decimal.Digits

/-! ## 3. The digits of a decimal -/

namespace Decimal

variable {d : Decimal}

theorem isDigit_of_mem_digits {c : Char} (hc : c ∈ d.toDigits.digits) : isDigit c = true := by
  have hall : c ∈ Nat.toDigits 10 d.coefficient :=
    List.mem_reverse.mp ((List.dropWhile_sublist _).subset (List.mem_reverse.mp hc))
  exact isDigit_of_mem_toDigits hall

/-- The zeros that the digits leave out, as a factor of the coefficient. -/
theorem exists_trailing_zeros (d : Decimal) :
    ∃ n : Nat, d.coefficient = Nat.ofDigitChars 10 d.toDigits.digits 0 * 10 ^ n ∧
      d.toDigits.point = d.exponent + n + d.toDigits.digits.length := by
  obtain ⟨n, hn⟩ := exists_zeros (Nat.toDigits 10 d.coefficient)
  have hdigits : Nat.toDigits 10 d.coefficient = d.toDigits.digits ++ List.replicate n '0' := hn
  refine ⟨n, ?_, ?_⟩
  · rw [← Digits.ofDigitChars_append_zeros, ← hdigits, Nat.ofDigitChars_ten_toDigits]
  · show d.exponent + (Nat.toDigits 10 d.coefficient).length = _
    rw [hdigits, List.length_append, List.length_replicate]
    omega

theorem digits_ne_nil (h : d.coefficient ≠ 0) : d.toDigits.digits ≠ [] := by
  intro hnil
  obtain ⟨n, hn, _⟩ := exists_trailing_zeros d
  rw [hnil, Nat.ofDigitChars_nil, Nat.zero_mul] at hn
  exact h hn

/-- The digits and the point of a decimal stand for it. -/
theorem toBinary64_toDecimal (negative : Bool) :
    d.toDigits.toDecimal.toBinary64 negative = d.toBinary64 negative := by
  obtain ⟨n, hcoefficient, hpoint⟩ := exists_trailing_zeros d
  have hexponent : d.toDigits.point - d.toDigits.digits.length = d.exponent + n := by omega
  unfold Digits.toDecimal
  rw [hexponent, ← toBinary64_mul_ten_pow, ← hcoefficient]

/-- Without a coefficient a decimal is read as zero. -/
theorem rank_toBinary64_of_coefficient_eq_zero (h : d.coefficient = 0) (negative : Bool) :
    (d.toBinary64 negative).rank.val = 0 := by
  -- nothing rounds to nothing, whatever it is divided by
  have hround : ∀ n, Binary64.roundToEven 0 n = 0 := by
    intro n
    unfold Binary64.roundToEven
    rw [Nat.zero_div, Nat.zero_mod]
    dsimp only
    split
    · rfl
    · rw [if_neg (Nat.not_lt_zero n)]
  have hnearest : ∀ n, (Binary64.nearest negative 0 n).rank.val = 0 := by
    intro n
    have hlog : Nat.log2 0 - 52 = 0 := rfl
    unfold Binary64.nearest Binary64.nearestRank
    dsimp only
    rw [Nat.zero_div, hlog, Nat.zero_mul, hround, Nat.zero_min]
  have horder : d.order = 0 := if_pos h
  rw [toBinary64_of_order (by omega) (by omega)]
  unfold unitFraction
  split
  · dsimp only
    rw [h, Nat.zero_mul, Nat.zero_mul]
    exact hnearest _
  · dsimp only
    rw [h, Nat.zero_mul]
    exact hnearest _

end Decimal

namespace Binary64

variable {x : Binary64}

/-! ## 4. The digits of a number -/

theorem toList_signed (x : Binary64) (cs : List Char) :
    (x.signed cs).toList = if x.negative then '-' :: cs else cs := by
  unfold signed
  rw [String.toList_ofList]

/-- The digits of a finite number in positional form stand for it, with or without a zero after the
    point of a whole number. -/
theorem exists_numeral_digits (hx : x.isFinite = true) (hzero : x.isZero = false) :
    (∃ m : Numeral, (x.signed x.digits.positional).toList = m.chars ∧ m.value = x) ∧
      ((x.digits.digits.length : Int) ≤ x.digits.point →
        ∃ m : Numeral, (x.signed (x.digits.positional ++ ['.', '0'])).toList = m.chars ∧
          m.value = x) := by
  -- the digits are those of the shortest decimal, which reads back as the number
  have hread : x.digits.toDecimal.toBinary64 x.negative = x :=
    (Decimal.toBinary64_toDecimal x.negative).trans (shortest_toBinary64 hx)
  have hcoefficient : (shortest x.rank.val).coefficient ≠ 0 := by
    intro h
    have hrank := Decimal.rank_toBinary64_of_coefficient_eq_zero h x.negative
    rw [shortest_toBinary64 hx] at hrank
    unfold isZero at hzero
    rw [hrank] at hzero
    cases hzero
  have hne : x.digits.digits ≠ [] := Decimal.digits_ne_nil hcoefficient
  have hdigits : ∀ c ∈ x.digits.digits, isDigit c = true :=
    fun c hc => Decimal.isDigit_of_mem_digits hc
  refine ⟨?_, fun hpoint => ?_⟩
  -- without a place after the point, and with the zero that a whole number keeps
  · obtain ⟨m, hnegative, hmagnitude, hvalue⟩ :=
      Decimal.Digits.exists_numeral_positional hne hdigits x.negative
    refine ⟨m, ?_, hvalue.trans hread⟩
    unfold Numeral.chars
    rw [toList_signed, hnegative, hmagnitude]
  · obtain ⟨m, hnegative, hmagnitude, hvalue⟩ :=
      Decimal.Digits.exists_numeral_whole hne hdigits hpoint 1 x.negative
    refine ⟨m, ?_, hvalue.trans hread⟩
    unfold Numeral.chars
    rw [toList_signed, hnegative, hmagnitude]
    rfl

/-- What a message shows of a finite number in positional form stands for it. -/
theorem exists_numeral_display (hx : x.isFinite = true) (hzero : x.isZero = false)
    (hpositional : Positional x.digits = true) :
    ∃ m : Numeral, x.display.toList = m.chars ∧ m.value = x := by
  obtain ⟨hplain, hwhole⟩ := exists_numeral_digits hx hzero
  have hnan : x.isNaN = false := by
    have hfinite : x.rank.val < infinityRank := of_decide_eq_true hx
    exact decide_eq_false (Nat.lt_asymm hfinite)
  unfold display displayMagnitude
  rw [hnan, hx, hzero]
  dsimp only
  rw [if_neg Bool.false_ne_true, if_pos rfl, if_neg Bool.false_ne_true, if_pos hpositional]
  split
  · next hpoint => exact hwhole hpoint
  · exact hplain

/-! ## 5. Whole numbers -/

theorem toList_toString_int (n : Int) :
    (toString n).toList =
      if n < 0 then '-' :: Nat.toDigits 10 n.natAbs else Nat.toDigits 10 n.natAbs := by
  cases n with
  | ofNat n => exact Nat.toList_repr
  | negSucc n =>
    have hneg : Int.negSucc n < 0 := Int.negSucc_lt_zero n
    rw [if_pos hneg]
    show ("-" ++ (n + 1).repr).toList = '-' :: Nat.toDigits 10 (n + 1)
    rw [String.toList_append, Nat.toList_repr]
    rfl

/-- `toInt?` with the division of natural numbers. -/
theorem toInt?_eq (x : Binary64) :
    x.toInt? = if (x.isFinite && units x.rank.val % unitsPerOne == 0) = true then
      some (if x.negative then -((units x.rank.val / unitsPerOne : Nat) : Int)
        else ((units x.rank.val / unitsPerOne : Nat) : Int)) else none := by
  unfold toInt?
  dsimp only
  rw [Int.natCast_ediv]

/-- The magnitude of a whole number, and its sign if it is not zero. -/
theorem of_toInt?_eq_some {n : Int} (h : x.toInt? = some n) :
    x.isFinite = true ∧ units x.rank.val = n.natAbs * unitsPerOne ∧
      (n ≠ 0 → x.negative = decide (n < 0)) := by
  rw [toInt?_eq] at h
  -- a whole number is a multiple of one in units, and its quotient is the value up to the sign
  by_cases hwhole : (x.isFinite && units x.rank.val % unitsPerOne == 0) = true
  · rw [if_pos hwhole] at h
    obtain ⟨hfinite, hmod⟩ := Bool.and_eq_true_iff.mp hwhole
    have hdiv := Nat.div_add_mod (units x.rank.val) unitsPerOne
    rw [beq_iff_eq.mp hmod, Nat.add_zero, Nat.mul_comm] at hdiv
    generalize units x.rank.val / unitsPerOne = k at h hdiv
    have hn := Option.some.inj h
    cases hnegative : x.negative with
    | false =>
      rw [hnegative, if_neg Bool.false_ne_true] at hn
      refine ⟨hfinite, ?_, fun _ => ?_⟩
      · rw [← hn, Int.natAbs_natCast, hdiv]
      · exact (decide_eq_false (by omega)).symm
    | true =>
      rw [hnegative, if_pos rfl] at hn
      refine ⟨hfinite, ?_, fun hne => ?_⟩
      · rw [← hn, Int.natAbs_neg, Int.natAbs_natCast, hdiv]
      · exact (decide_eq_true (by omega)).symm
  · rw [if_neg hwhole] at h
    cases h

/-- Of a finite number, the rank is what counts, and the sign where the rank is not zero. -/
theorem same_of_rank {y : Binary64} (hx : x.isFinite = true) (hrank : y.rank = x.rank)
    (hsign : x.rank.val ≠ 0 → y.negative = x.negative) : y.same x = true := by
  have hfinite : x.rank.val < infinityRank := of_decide_eq_true hx
  have hnan : x.isNaN = false := decide_eq_false (Nat.lt_asymm hfinite)
  have hnan' : y.isNaN = false := by
    unfold isNaN at hnan ⊢
    rw [hrank]
    exact hnan
  unfold same
  rw [hnan, hnan']
  -- two zeros are the same whatever their signs; otherwise the signs agree too
  by_cases hzero : x.rank.val = 0
  · have hx0 : x.isZero = true := beq_iff_eq.mpr hzero
    have hy0 : y.isZero = true := by
      unfold isZero
      rw [hrank]
      exact hx0
    rw [hx0, hy0]
    simp
  · have heq : y = x := by
      cases x
      cases y
      cases hrank
      cases hsign hzero
      rfl
    rw [heq]
    simp

/-- A whole number below the bound on exact digits is read as the binary64 number that it is. -/
theorem toBinary64_whole (hx : x.isFinite = true) {k : Nat}
    (hunits : units x.rank.val = k * unitsPerOne)
    (hsmall : k < exactBound) : Decimal.toBinary64 x.negative ⟨k, 0⟩ = x := by
  have hplaces : exactBound ≤ 10 ^ 310 := by decide +kernel
  have hbound : k < 10 ^ 310 := Nat.lt_of_lt_of_le hsmall hplaces
  have hone : k ≠ 0 → 10 ^ 0 ≤ k := fun hc => Nat.pos_of_ne_zero hc
  have horder : -330 ≤ Decimal.order ⟨k, 0⟩ ∧ Decimal.order ⟨k, 0⟩ ≤ 310 :=
    order_bounds hone hbound (by decide) (by decide) (by decide)
  have hfraction : Decimal.unitFraction ⟨k, 0⟩ = (units x.rank.val * 1, 1) := by
    show (k * 10 ^ 0 * unitsPerOne, 1) = (units x.rank.val * 1, 1)
    rw [Nat.pow_zero, Nat.mul_one, Nat.mul_one, hunits]
  exact toBinary64_of_unitFraction hx horder Nat.one_pos hfraction

/-- The text of a whole number is a numeral, which stands for the decimal of its digits. -/
theorem exists_numeral_int (n : Int) :
    ∃ m : Numeral, (toString n).toList = m.chars ∧
      m.value = Decimal.toBinary64 (decide (n < 0)) ⟨n.natAbs, 0⟩ := by
  have hdigits : ∀ c ∈ Nat.toDigits 10 n.natAbs, isDigit c = true :=
    fun c hc => isDigit_of_mem_toDigits hc
  refine ⟨⟨decide (n < 0), Nat.toDigits 10 n.natAbs, [], Nat.toDigits_ne_nil, hdigits,
    fun _ hc => absurd hc List.not_mem_nil⟩, ?_, ?_⟩
  · show (toString n).toList =
      if decide (n < 0) then '-' :: (Nat.toDigits 10 n.natAbs ++ [])
      else Nat.toDigits 10 n.natAbs ++ []
    rw [toList_toString_int, List.append_nil]
    by_cases hneg : n < 0
    · rw [if_pos hneg, if_pos (decide_eq_true hneg)]
    · rw [if_neg hneg, if_neg (by simpa using hneg)]
  · show (⟨Nat.ofDigitChars 10 (Nat.toDigits 10 n.natAbs ++ []) 0, -((0 : Nat) : Int)⟩ :
      Decimal).toBinary64
      (decide (n < 0)) = _
    rw [List.append_nil, Nat.ofDigitChars_ten_toDigits]
    rfl

/-- The exact digits of a small whole number stand for it. -/
theorem exists_numeral_toInt {n : Int} (h : x.toInt? = some n) (hsmall : n.natAbs < exactBound) :
    ∃ m : Numeral, (toString n).toList = m.chars ∧ m.value.same x = true := by
  obtain ⟨hx, hunits, hsign⟩ := of_toInt?_eq_some h
  obtain ⟨m, hm, hvalue⟩ := exists_numeral_int n
  -- the number of that sign and this rank is finite too, and its magnitude is exact
  have hy : (⟨decide (n < 0), x.rank⟩ : Binary64).isFinite = true := hx
  refine ⟨m, hm, ?_⟩
  rw [hvalue, toBinary64_whole hy hunits hsmall]
  refine same_of_rank hx rfl fun hrank => (hsign fun hn => ?_).symm
  have hpos := units_pos hrank
  rw [hunits, hn, Int.natAbs_zero, Nat.zero_mul] at hpos
  exact Nat.lt_irrefl 0 hpos

/-! ## 6. The text of a number -/

theorem isFinite_of_isZero (h : x.isZero = true) : x.isFinite = true := by
  have hrank : x.rank.val = 0 := beq_iff_eq.mp h
  exact decide_eq_true (by rw [hrank]; decide)

/-- Zero is a whole number. -/
theorem toInt?_of_isZero (h : x.isZero = true) : x.toInt? = some 0 := by
  have hrank : x.rank.val = 0 := beq_iff_eq.mp h
  have hfinite : x.isFinite = true := isFinite_of_isZero h
  have hunits : units x.rank.val = 0 := by
    rw [hrank]
    rfl
  have hwhole : (x.isFinite && units x.rank.val % unitsPerOne == 0) = true := by
    rw [hfinite, hunits, Nat.zero_mod]
    rfl
  rw [toInt?_eq, if_pos hwhole, hunits, Nat.zero_div]
  cases x.negative <;> rfl

/-- **The text of a finite number is a numeral that stands for it.** -/
theorem exists_numeral_text (hx : x.isFinite = true) :
    ∃ m : Numeral, x.text.toList = m.chars ∧ m.value.same x = true := by
  have hsame : x.same x = true := same_of_rank hx rfl fun _ => rfl
  -- all texts but those of small whole numbers are made of the digits
  have hdigits : x.isZero = false → ∃ m : Numeral,
      (if Positional x.digits = true then x.display else x.signed x.digits.positional).toList =
        m.chars ∧
        m.value.same x = true := by
    intro hzero
    split
    · next hpositional =>
      obtain ⟨m, hm, hvalue⟩ := exists_numeral_display hx hzero hpositional
      exact ⟨m, hm, hvalue.symm ▸ hsame⟩
    · obtain ⟨m, hm, hvalue⟩ := (exists_numeral_digits hx hzero).1
      exact ⟨m, hm, hvalue.symm ▸ hsame⟩
  unfold text
  cases hn : x.toInt? with
  | some n =>
    dsimp only
    split
    · next hsmall => exact exists_numeral_toInt hn hsmall
    · next hlarge =>
      refine hdigits (Bool.eq_false_iff.mpr fun hzero => ?_)
      rw [toInt?_of_isZero hzero] at hn
      cases hn
      exact hlarge (by decide)
  | none =>
    dsimp only
    rw [hx, Bool.not_true, Bool.false_or]
    refine hdigits (Bool.eq_false_iff.mpr fun hzero => ?_)
    rw [toInt?_of_isZero hzero] at hn
    cases hn

/-! ## 7. Texts of equal numbers -/

theorem same_iff {y : Binary64} :
    x.same y = true ↔
      x.isNaN = false ∧ y.isNaN = false ∧ (x = y ∨ (x.isZero = true ∧ y.isZero = true)) := by
  unfold same
  rw [Bool.and_eq_true, Bool.and_eq_true, Bool.or_eq_true, Bool.and_eq_true, Bool.not_eq_true',
    Bool.not_eq_true', beq_iff_eq, and_assoc]

/-- What equals a finite number is finite. -/
theorem isFinite_of_same {y : Binary64} (hy : y.isFinite = true) (h : x.same y = true) :
    x.isFinite = true := by
  obtain ⟨_, _, rfl | ⟨hzero, _⟩⟩ := same_iff.mp h
  · exact hy
  · exact isFinite_of_isZero hzero

/-- What equals the same number is equal. -/
theorem same_of_same {v y : Binary64} (hx : v.same x = true) (hy : v.same y = true) :
    x.same y = true := by
  obtain ⟨hvn, hxn, hvx⟩ := same_iff.mp hx
  obtain ⟨_, hyn, hvy⟩ := same_iff.mp hy
  refine same_iff.mpr ⟨hxn, hyn, ?_⟩
  rcases hvx with rfl | ⟨hv, hxz⟩
  · exact hvy
  · rcases hvy with rfl | ⟨_, hyz⟩
    · exact .inr ⟨hxz, hv⟩
    · exact .inr ⟨hxz, hyz⟩

theorem text_of_isZero (h : x.isZero = true) : x.text = toString (0 : Int) := by
  unfold text
  rw [toInt?_of_isZero h]
  rfl

/-- Equal numbers have the same text. -/
theorem text_eq_of_same {y : Binary64} (h : x.same y = true) : x.text = y.text := by
  obtain ⟨_, _, rfl | ⟨hx, hy⟩⟩ := same_iff.mp h
  · rfl
  · rw [text_of_isZero hx, text_of_isZero hy]

/-- The text of a finite number is not empty and begins with a sign or a digit. -/
theorem head?_text (hx : x.isFinite = true) :
    ∃ c, x.text.toList.head? = some c ∧ (c = '-' ∨ isDigit c = true) := by
  obtain ⟨m, hm, _⟩ := exists_numeral_text hx
  obtain ⟨c, cs, hcs⟩ := List.exists_cons_of_ne_nil m.whole_ne_nil
  have hdigit : isDigit c = true := m.isDigit_whole c (hcs ▸ List.mem_cons_self)
  rw [hm]
  unfold Numeral.chars Numeral.magnitude
  rw [hcs]
  cases m.negative
  · exact ⟨c, rfl, .inr hdigit⟩
  · exact ⟨'-', rfl, .inl rfl⟩

/-- **A text begins with the text of one number at most**, where a colon follows. -/
theorem text_unique {y : Binary64} (hx : x.isFinite = true) (hy : y.isFinite = true)
    {rest rest' : List Char} (h : x.text.toList ++ ':' :: rest = y.text.toList ++ ':' :: rest') :
    x.same y = true ∧ rest = rest' := by
  obtain ⟨m, hm, hvalue⟩ := exists_numeral_text hx
  obtain ⟨m', hm', hvalue'⟩ := exists_numeral_text hy
  have hend : ∀ cs, Text.EndsAt isDigit (':' :: cs) := fun cs => Text.endsAt_cons.mpr rfl
  have hpoint : ∀ cs, (':' :: cs).head? ≠ some '.' := by
    intro cs hcs
    cases hcs
  rw [hm, hm'] at h
  obtain ⟨rfl, hrest⟩ := Numeral.chars_unique (hend _) (hend _) (hpoint _) (hpoint _) h
  exact ⟨same_of_same hvalue hvalue', (List.cons.inj hrest).2⟩

end Binary64

end Sigil

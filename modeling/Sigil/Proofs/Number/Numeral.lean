import Sigil.Number.Text
import Sigil.Proofs.Number.Decimal
import Sigil.Proofs.Text.Segment

/-!
# Numerals

A numeral is an optional minus sign, digits, and optionally a point with further digits. It stands
for the number nearest to its value. Where a numeral ends is told by the next character, so a text
begins with one numeral at most.
-/

namespace Sigil

open Text (isDigit EndsAt)

/-- A sign, digits before the point, and digits after it. -/
structure Numeral where
  negative : Bool
  whole : List Char
  fraction : List Char
  whole_ne_nil : whole ≠ []
  isDigit_whole : ∀ c ∈ whole, isDigit c = true
  isDigit_fraction : ∀ c ∈ fraction, isDigit c = true

namespace Numeral

/-! ## 1. Text and value -/

/-- Digits behind a point, or nothing. -/
def pointed : List Char → List Char
  | [] => []
  | c :: cs => '.' :: c :: cs

theorem pointed_of_ne_nil {ds : List Char} (h : ds ≠ []) : pointed ds = '.' :: ds := by
  cases ds with
  | nil => exact absurd rfl h
  | cons d ds => rfl

/-- The magnitude as it is written. -/
def magnitude (m : Numeral) : List Char := m.whole ++ pointed m.fraction

/-- The numeral as it is written. -/
def chars (m : Numeral) : List Char := if m.negative then '-' :: m.magnitude else m.magnitude

/-- The number that the numeral stands for. -/
def value (m : Numeral) : Binary64 := (Decimal.ofDigits m.whole m.fraction).toBinary64 m.negative

/-! ## 2. Unique reading -/

theorem endsAt_pointed (ds rest : List Char) (hrest : EndsAt isDigit rest) :
    EndsAt isDigit (pointed ds ++ rest) := by
  cases ds with
  | nil => exact hrest
  | cons d ds => exact Text.endsAt_cons.mpr rfl

/-- A fraction ends where no digit goes on, and is there only if a point stands first. -/
theorem pointed_unique {ds ds' rest rest' : List Char} (hds : ∀ c ∈ ds, isDigit c = true)
    (hds' : ∀ c ∈ ds', isDigit c = true) (hrest : EndsAt isDigit rest)
    (hrest' : EndsAt isDigit rest')
    (hpoint : rest.head? ≠ some '.') (hpoint' : rest'.head? ≠ some '.')
    (h : pointed ds ++ rest = pointed ds' ++ rest') : ds = ds' ∧ rest = rest' := by
  -- a point behind the digits would belong to the fraction, so neither rest starts with one
  cases ds with
  | nil =>
    cases ds' with
    | nil => exact ⟨rfl, h⟩
    | cons d' ds' =>
      have hrest : rest = '.' :: d' :: ds' ++ rest' := h
      rw [hrest] at hpoint
      exact absurd rfl hpoint
  | cons d ds =>
    cases ds' with
    | nil =>
      have hrest' : '.' :: d :: ds ++ rest = rest' := h
      rw [← hrest'] at hpoint'
      exact absurd rfl hpoint'
    | cons d' ds' => exact Text.segment_unique hds hrest hds' hrest' (List.cons.inj h).2

/-- The magnitude does not start with a sign. -/
theorem head?_magnitude (m : Numeral) (rest : List Char) :
    (m.magnitude ++ rest).head? ≠ some '-' := by
  obtain ⟨c, cs, hcs⟩ := List.exists_cons_of_ne_nil m.whole_ne_nil
  have hdigit : isDigit c = true := m.isDigit_whole c (hcs ▸ List.mem_cons_self)
  unfold magnitude
  rw [hcs]
  intro h
  rw [Option.some.inj h] at hdigit
  cases hdigit

/-- **A text begins with one numeral at most**, where what follows can not belong to it. -/
theorem chars_unique {m m' : Numeral} {rest rest' : List Char} (hrest : EndsAt isDigit rest)
    (hrest' : EndsAt isDigit rest') (hpoint : rest.head? ≠ some '.')
    (hpoint' : rest'.head? ≠ some '.')
    (h : m.chars ++ rest = m'.chars ++ rest') : m = m' ∧ rest = rest' := by
  -- a magnitude starts with a digit, so the sign shows in the first character
  obtain ⟨hsign, hmagnitude⟩ :
      m.negative = m'.negative ∧ m.magnitude ++ rest = m'.magnitude ++ rest' := by
    unfold chars at h
    cases hn : m.negative <;> cases hn' : m'.negative <;> rw [hn, hn'] at h
    · exact ⟨rfl, h⟩
    · exact absurd (congrArg List.head? h) (m.head?_magnitude rest)
    · exact absurd (congrArg List.head? h).symm (m'.head?_magnitude rest')
    · exact ⟨rfl, (List.cons.inj h).2⟩
  unfold magnitude at hmagnitude
  rw [List.append_assoc, List.append_assoc] at hmagnitude
  -- digits end where no digit follows, first those of the whole part, then those of the fraction
  obtain ⟨hwhole, hrests⟩ := Text.segment_unique m.isDigit_whole (endsAt_pointed _ _ hrest)
    m'.isDigit_whole (endsAt_pointed _ _ hrest') hmagnitude
  obtain ⟨hfraction, htails⟩ := pointed_unique m.isDigit_fraction m'.isDigit_fraction hrest hrest'
    hpoint hpoint' hrests
  cases m
  cases m'
  cases hsign
  cases hwhole
  cases hfraction
  exact ⟨rfl, htails⟩

end Numeral

end Sigil

import Sigil.Expr.Reader
import Sigil.Proofs.Number.Nearest
import Sigil.Proofs.Schema.Accepted
import Sigil.Proofs.Schema.Fields
import Sigil.Proofs.Token.Written

/-!
# Scalars as definitions

A schema may give a name a scalar instead of a text. The text that is made of it is an expression
later on, and reads as this scalar: null and the truth values as themselves, a number as the one
nearest to it (`scalar_definitions_are_readable`). Only a whole number that is too large for any
number of the notation is accepted all the same, and its text is refused where it is read
(`large_integer_is_accepted_and_unreadable`).
-/

namespace Sigil

/-! ## 1. Texts of numbers -/

/-- A number that equals a finite one is the nearest to its value. -/
theorem Binary64.nearestTo_of_same {x y : Binary64} (hy : y.isFinite = true) (h : x.same y = true) :
    x.NearestTo y.inUnits := by
  obtain ⟨-, -, rfl | ⟨hxzero, hyzero⟩⟩ := same_iff.mp h
  · exact nearestTo_inUnits hy
  · have hx : x.rank.val = 0 := beq_iff_eq.mp hxzero
    have hy0 : y.rank.val = 0 := beq_iff_eq.mp hyzero
    have hfinite : x.isFinite = true := isFinite_of_isZero hxzero
    have hvalue : y.inUnits = x.inUnits := by
      unfold inUnits
      rw [hx, hy0]
      cases x.negative <;> cases y.negative <;> rfl
    rw [hvalue]
    exact nearestTo_inUnits hfinite

namespace Expr

/-- A numeral is an expression if its number is in range. -/
theorem ofText_numeral {m : Numeral} {text : String} (h : text.toList = m.chars) :
    ∃ first, ofText text = if m.value.isFinite then .ok (.number m.value)
      else .error (.spelling ⟨.outOfRange first, 0⟩) := by
  obtain ⟨first, hscan⟩ := Token.scan_numeral h
  refine ⟨first, ?_⟩
  unfold ofText
  rw [hscan]
  cases m.value.isFinite <;> rfl

/-- The text is a number, the nearest one to this value in units. -/
def ReadsNearest (text : String) (value : Int) : Prop :=
  ∃ x : Binary64, ofText text = .ok (.number x) ∧ x.NearestTo value

/-- The text is refused at its start, as a number out of range. -/
def OutOfRange (text : String) : Prop :=
  ∃ first, ofText text = .error (.spelling ⟨.outOfRange first, 0⟩)

/-- The text of a finite number is read as a number of the same value. -/
theorem readsNearest_text {x : Binary64} (hx : x.isFinite = true) :
    ReadsNearest x.text x.inUnits := by
  obtain ⟨m, hm, hsame⟩ := Binary64.exists_numeral_text hx
  have hnearest := Binary64.nearestTo_of_same hx hsame
  obtain ⟨_, hread⟩ := ofText_numeral hm
  rw [if_pos hnearest.finite] at hread
  exact ⟨m.value, hread, hnearest⟩

/-- The text of a whole number below the bound is read as the nearest number. -/
theorem readsNearest_integer {n : Int} (h : n.natAbs < Binary64.wholeBound) :
    ReadsNearest (toString n) (n * Binary64.unitsPerOne) := by
  obtain ⟨m, hm, hvalue⟩ := Binary64.exists_numeral_int n
  have hnearest := Binary64.nearestTo_toBinary64 (decide (n < 0)) h
  -- the sign of the integer is that of its text, and both sides count in the same units
  have hunits : (if decide (n < 0) then -((n.natAbs * Binary64.unitsPerOne : Nat) : Int)
      else (n.natAbs * Binary64.unitsPerOne : Nat)) = n * Binary64.unitsPerOne := by
    rw [Int.natCast_mul]
    generalize (Binary64.unitsPerOne : Int) = units
    split
    · next hneg =>
      have hn : (n.natAbs : Int) = -n := by
        have hlt : n < 0 := of_decide_eq_true hneg
        omega
      rw [hn, Int.neg_mul, Int.neg_neg]
    · next hpos =>
      have hn : (n.natAbs : Int) = n := by
        have hle : ¬ n < 0 := fun hlt => hpos (decide_eq_true hlt)
        omega
      rw [hn]
  rw [hunits, ← hvalue] at hnearest
  obtain ⟨_, hread⟩ := ofText_numeral hm
  rw [if_pos hnearest.finite] at hread
  exact ⟨m.value, hread, hnearest⟩

/-- The text of a whole number from the bound on is refused. -/
theorem outOfRange_integer {n : Int} (h : Binary64.wholeBound ≤ n.natAbs) :
    OutOfRange (toString n) := by
  obtain ⟨m, hm, hvalue⟩ := Binary64.exists_numeral_int n
  have hendless := Binary64.isFinite_toBinary64_of_le (decide (n < 0)) h
  obtain ⟨first, hread⟩ := ofText_numeral hm
  rw [hvalue, hendless, if_neg Bool.false_ne_true] at hread
  exact ⟨first, hread⟩

end Expr

namespace Schema

/-! ## 2. Texts of scalars -/

/-- What the text that is made of a scalar is read as; a text stays as it is, and of a value of
    another kind nothing is said. -/
def ReadsAs (text : String) : Scalar → Prop
  | .null => Expr.ofText text = .ok .null
  | .bool b => Expr.ofText text = .ok (.bool b)
  | .int n =>
    (n.natAbs < Binary64.wholeBound → Expr.ReadsNearest text (n * Binary64.unitsPerOne)) ∧
      (Binary64.wholeBound ≤ n.natAbs → Expr.OutOfRange text)
  | .float x => Expr.ReadsNearest text x.inUnits
  | .string s => text = s
  | .other _ => True
  | .date _ | .moment _ => False

/-- The text of an entry that becomes a definition is made of a scalar, and reads as it. -/
theorem Defines.readsAs {entry : Key × Value} {definition : String × String}
    (h : Defines entry definition) : ∃ s, entry.2 = .scalar s ∧ ReadsAs definition.2 s := by
  obtain ⟨key, value⟩ := entry
  obtain ⟨name, text⟩ := definition
  obtain ⟨converted, hconverted, htext⟩ := h.text
  dsimp only at hconverted htext ⊢
  unfold scalarToText at hconverted
  -- one case for each scalar that gets a text, and one for all that stays as it is
  split at hconverted
  · cases hconverted
    cases Value.isText_string.mp htext
    exact ⟨.null, rfl, rfl⟩
  · next b =>
    cases hconverted
    cases Value.isText_string.mp htext
    refine ⟨.bool b, rfl, ?_⟩
    cases b <;> exact rfl
  · next n =>
    split at hconverted
    · cases hconverted
      cases Value.isText_string.mp htext
      exact ⟨.int n, rfl, Expr.readsNearest_integer, Expr.outOfRange_integer⟩
    · cases hconverted
  · next x =>
    split at hconverted
    · next hfinite =>
      cases hconverted
      cases Value.isText_string.mp htext
      exact ⟨.float x, rfl, Expr.readsNearest_text hfinite⟩
    · cases hconverted
  · cases hconverted
    cases value with
    | scalar s =>
      refine ⟨s, rfl, ?_⟩
      cases s with
      | string s => exact (Value.isText_string.mp htext).symm
      | other shown => trivial
      | _ => cases htext
    | list items => cases htext
    | map entries => cases htext

/-! ## 3. Definitions -/

/-- **The definitions of an accepted schema read as the scalars that they were given as**: each
    entry of the map becomes a definition of its name, and its text reads as its scalar. The
    definitions are these in order, where of two with one name the later one counts. -/
theorem scalar_definitions_are_readable {check : FieldCheck} (lawful : check.Lawful)
    {fields : List (String × Value)} {schema : Schema} {entries : List (Key × Value)}
    (h : check scalarsToText checkNames fields = .ok schema)
    (hentries : Entries.find? "definitions" fields = some (.map entries)) :
    ∃ texts, schema.definitions = Entries.putAll texts [] ∧
      ((texts.map Prod.fst).Nodup → schema.definitions = texts) ∧
      List.Forall₂ (fun entry definition => entry.1.IsText definition.1 ∧
        ∃ s, entry.2 = .scalar s ∧ ReadsAs definition.2 s) entries texts := by
  obtain ⟨_, texts, hmap, hdefines, hsame, -⟩ := lawful.definitions h hentries
  cases hmap
  refine ⟨texts, hsame, fun hnodup => ?_, hdefines.imp fun _ _ h => ⟨h.name, h.readsAs⟩⟩
  rw [hsame]
  exact (Entries.putAll_of_nodup hnodup).trans (List.nil_append _)

/-- Half a number, a number, a truth value and null, each a definition. -/
theorem mixed_definitions_are_readable :
    let half := Binary64.ofBits 0x3FE0000000000000
    let entries := [(Key.text "none", Value.null), (Key.text "yes", .scalar (.bool true)),
      (Key.text "three", .scalar (.int 3)), (Key.text "half", .scalar (.float half))]
    let fields := [("version", Value.string "0.1"), ("definitions", .map entries)]
    let schema : Schema :=
      ⟨"0.1", [("none", "null"), ("yes", "true"), ("three", "3"), ("half", "0.5")]⟩
    FieldCheck.Lawful Fields.check ∧
      Fields.check scalarsToText checkNames fields = .ok schema ∧
      Entries.find? "definitions" fields = some (.map entries) ∧
      ∃ texts, schema.definitions = Entries.putAll texts [] ∧
        ((texts.map Prod.fst).Nodup → schema.definitions = texts) ∧
        List.Forall₂ (fun entry definition => entry.1.IsText definition.1 ∧
          ∃ s, entry.2 = .scalar s ∧ ReadsAs definition.2 s) entries texts := by
  intro half entries fields schema
  have hread : Fields.check scalarsToText checkNames fields = .ok schema := by decide +kernel
  have hentries : Entries.find? "definitions" fields = some (.map entries) := rfl
  exact ⟨Fields.check_lawful, hread, hentries,
    scalar_definitions_are_readable Fields.check_lawful hread hentries⟩

/-- A whole number above all finite numbers is accepted as a definition, whatever the check, and its
    text is refused as out of range. -/
theorem large_integer_is_accepted_and_unreadable :
    let n : Int := ((10 ^ 309 : Nat) : Int)
    (∀ check : FieldCheck, check.Lawful → check scalarsToText checkNames
        [("version", .string "0.1"), ("definitions", .map [(Key.text "a", .scalar (.int n))])] =
          .ok ⟨"0.1", [("a", toString n)]⟩) ∧
      FieldCheck.Lawful Fields.check ∧ Expr.OutOfRange (toString n) := by
  intro n
  have hlarge : Binary64.wholeBound ≤ n.natAbs := by decide +kernel
  have hdigits : n.natAbs < Nat.pow 10 Text.maxDigits := by decide +kernel
  have htext : scalarToText (Key.text "a") (.scalar (.int n)) = .ok (.string (toString n)) := by
    rw [scalarToText, if_pos hdigits]
  exact ⟨fun check lawful => lawful.accepts _ htext rfl, Fields.check_lawful,
    Expr.outOfRange_integer hlarge⟩

end Schema

end Sigil

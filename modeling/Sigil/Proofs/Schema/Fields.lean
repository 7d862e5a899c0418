import Sigil.Outer.Fields
import Sigil.Proofs.Schema.Accepted

/-!
# The check of fields that is supplied

The check of the outer layer keeps what is relied on (`Fields.check_lawful`). All checks of the
entries succeed together (`Checked.all_eq_ok_iff`), and an entry is accepted exactly if it is a text
under a name that is one.
-/

namespace Sigil

/-! ## 1. Checks together -/

/-- All checks succeed if each one does. -/
theorem Checked.all_eq_ok_iff {α : Type} {as : List (Checked α)} {xs : List α} :
    all as = .ok xs ↔ List.Forall₂ (fun a x => a = .ok x) as xs := by
  induction as generalizing xs with
  | nil =>
    rw [List.forall₂_nil_left_iff]
    exact ⟨fun h => (Except.ok.inj h).symm, fun h => h ▸ rfl⟩
  | cons a as ih =>
    rw [List.forall₂_cons_left_iff]
    unfold all
    constructor
    · intro h
      obtain ⟨⟨x, xs'⟩, hboth, rfl⟩ := map_eq_ok_iff.mp h
      obtain ⟨hx, hxs⟩ := both_eq_ok_iff.mp hboth
      exact ⟨x, xs', hx, ih.mp hxs, rfl⟩
    · rintro ⟨x, xs', hx, hxs, rfl⟩
      rw [both_eq_ok_iff.mpr ⟨hx, ih.mpr hxs⟩]
      rfl

namespace Fields

/-! ## 2. Entries -/

theorem textEntry_eq_ok_iff {entry : Key × Value} {definition : String × String} :
    textEntry entry = .ok definition ↔
      entry = (Key.text definition.1, Value.string definition.2) := by
  obtain ⟨key, value⟩ := entry
  obtain ⟨name, text⟩ := definition
  unfold textEntry
  dsimp only
  rw [Checked.both_eq_ok_iff]
  constructor
  · rintro ⟨hname, htext⟩
    -- both halves of the entry have to be texts, else the check has a complaint
    split at hname
    · split at htext
      · cases hname
        cases htext
        rfl
      · cases htext
    · cases hname
  · rintro ⟨⟩
    exact ⟨rfl, rfl⟩

/-- The entry of a definition. -/
def entryOf (definition : String × String) : Key × Value :=
  (Key.text definition.1, Value.string definition.2)

theorem textsOf_eq_ok_iff {value : Value} {texts : List (String × String)} :
    textsOf value = .ok texts ↔ value = .map (texts.map entryOf) := by
  cases value with
  | map entries =>
    calc textsOf (.map entries) = .ok texts
      _ ↔ List.Forall₂ (fun entry text => textEntry entry = .ok text) entries texts := by
          unfold textsOf
          rw [Checked.all_eq_ok_iff, List.forall₂_map_left_iff]
      _ ↔ List.Forall₂ (fun entry text => entry = entryOf text) entries texts := by
          simp only [textEntry_eq_ok_iff, entryOf]
      _ ↔ entries = texts.map entryOf := by
          rw [← List.forall₂_map_right_iff, List.forall₂_eq_eq_eq]
      _ ↔ Value.map entries = .map (texts.map entryOf) := (Value.map.injEq ..).symm ▸ Iff.rfl
  | scalar s => exact iff_of_false (fun h => by cases h) (fun h => by cases h)
  | list items => exact iff_of_false (fun h => by cases h) (fun h => by cases h)

/-! ## 3. Definitions -/

theorem validated_eq_ok_iff {α : Type} {answer : Except Exception α} {a : α} :
    validated answer = .ok (.ok a) ↔ answer = .ok a := by
  unfold validated
  split <;> simp [Checked.fault]

variable {before : Value → Except Exception Value}
  {after : List (String × String) → Except Exception (List (String × String))}

theorem definitionsOf_eq_ok_iff {value : Value} {definitions : List (String × String)} :
    definitionsOf before after value = .ok (.ok definitions) ↔
      ∃ texts, before value = .ok (.map (texts.map entryOf)) ∧
        after (Entries.putAll texts []) = .ok definitions := by
  unfold definitionsOf
  constructor
  -- forward: texts come out of the check only if what comes in is a map of texts
  · intro h
    obtain ⟨checked, hbefore, h⟩ := bind_eq_ok_iff.mp h
    cases checked with
    | error faults => cases h
    | ok value =>
      dsimp only at h
      cases htexts : textsOf value with
      | error faults =>
        rw [htexts] at h
        cases h
      | ok texts =>
        rw [htexts] at h
        rw [textsOf_eq_ok_iff.mp htexts] at hbefore
        exact ⟨texts, validated_eq_ok_iff.mp hbefore, validated_eq_ok_iff.mp h⟩
  · rintro ⟨texts, hbefore, hafter⟩
    rw [validated_eq_ok_iff.mpr hbefore, ok_bind]
    dsimp only
    rw [textsOf_eq_ok_iff.mpr rfl]
    exact validated_eq_ok_iff.mpr hafter

/-- The definitions of an accepted schema are those in its fields. -/
theorem definitionsIn_of_check {fields : List (String × Value)} {schema : Schema}
    (h : check before after fields = .ok schema) :
    definitionsIn before after fields = .ok (.ok schema.definitions) := by
  unfold check at h
  obtain ⟨checked, hchecked, h⟩ := bind_eq_ok_iff.mp h
  dsimp only at h
  split at h
  · next version definitions known hboth =>
    cases h
    obtain ⟨-, hrest⟩ := Checked.both_eq_ok_iff.mp hboth
    obtain ⟨rfl, -⟩ := Checked.both_eq_ok_iff.mp hrest
    exact hchecked
  · cases h

/-- **The check that is supplied is lawful.** -/
theorem check_lawful : FieldCheck.Lawful check where
  accepted {before after fields schema value} h hvalue := by
    have hdefinitions := definitionsIn_of_check h
    unfold definitionsIn at hdefinitions
    rw [hvalue] at hdefinitions
    obtain ⟨texts, hbefore, hafter⟩ := definitionsOf_eq_ok_iff.mp hdefinitions
    refine ⟨texts.map entryOf, texts, hbefore, ?_, hafter⟩
    rw [List.forall₂_map_left_iff]
    exact List.forall₂_same.mpr fun text _ => textEntry_text text
  absent {before after fields schema} h hnone := by
    have hdefinitions := definitionsIn_of_check h
    unfold definitionsIn at hdefinitions
    rw [hnone] at hdefinitions
    exact (Except.ok.inj (Except.ok.inj hdefinitions)).symm
  passed {before after version value texts definitions} hnodup hbefore hafter := by
    have htable : Entries.putAll texts [] = texts :=
      (Entries.putAll_of_nodup hnodup).trans (List.nil_append _)
    have hdefinitions : definitionsOf before after value = .ok (.ok definitions) :=
      definitionsOf_eq_ok_iff.mpr ⟨texts, hbefore, htable.symm ▸ hafter⟩
    unfold check
    show (definitionsOf before after value >>= _) = _
    rw [hdefinitions]
    rfl

end Fields

end Sigil

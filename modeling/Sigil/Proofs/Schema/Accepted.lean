import Sigil.Proofs.Registry.Merge
import Sigil.Proofs.Rows
import Sigil.Schema.Load

/-!
# Schemas that are accepted

The check of the fields of a schema is not the program's own. What is relied on is that it takes the
definitions for a map of texts, with the two hooks of the program before and after that
(`FieldCheck.Lawful`). The hook before is a map over the values (`scalarsToText_eq_map_iff`), the
one after lets through what it is given, or nothing (`checkNames_eq_ok_iff`).

So the definitions that are accepted are the entries with texts for plain scalars, under names
(`FieldCheck.Lawful.definitions`).
-/

namespace Sigil

/-! ## 1. What counts as a text -/

/-- The scalar may be taken for this text. A text is taken as it is; of a value of another kind it
    is left open what is made of it. -/
def Scalar.IsText (text : String) : Scalar → Prop
  | .string s => s = text
  | .other _ => True
  | _ => False

/-- The key may be taken for this text. -/
def Key.IsText (text : String) : Key → Prop
  | .scalar s => s.IsText text
  | .row _ => False

/-- The value may be taken for this text. -/
def Value.IsText (text : String) : Value → Prop
  | .scalar s => s.IsText text
  | _ => False

theorem Value.isText_string {text s : String} : (Value.string s).IsText text ↔ s = text := Iff.rfl

/-- The entry may be taken for a text under a name. -/
structure TextEntry (entry : Key × Value) (definition : String × String) : Prop where
  name : entry.1.IsText definition.1
  text : entry.2.IsText definition.2

/-- The entry of a definition is taken for it. -/
theorem textEntry_text (definition : String × String) :
    TextEntry (Key.text definition.1, Value.string definition.2) definition := ⟨rfl, rfl⟩

/-! ## 2. The check of the fields -/

/-- What is relied on of a check of fields, where the definitions are to be a map of texts. Of two
    entries that are taken for the same name, the later one replaces the other. -/
structure FieldCheck.Lawful (check : FieldCheck) : Prop where
  /-- Definitions of an accepted schema went through both hooks, and in between each entry was taken
      for a text under a name. -/
  accepted : ∀ {before after fields schema value}, check before after fields = .ok schema →
    Entries.find? "definitions" fields = some value → ∃ entries texts,
      before value = .ok (.map entries) ∧ List.Forall₂ TextEntry entries texts ∧
        after (Entries.putAll texts []) = .ok schema.definitions
  /-- Without the field there are no definitions. -/
  absent : ∀ {before after fields schema}, check before after fields = .ok schema →
    Entries.find? "definitions" fields = none → schema.definitions = []
  /-- Texts under different names are accepted if the hooks let them through. -/
  passed : ∀ {before after} {version : String} {value : Value}
    {texts definitions : List (String × String)}, (texts.map Prod.fst).Nodup →
    before value = .ok (.map (texts.map fun text => (Key.text text.1, Value.string text.2))) →
    after texts = .ok definitions →
      check before after [("version", .string version), ("definitions", value)] =
        .ok ⟨version, definitions⟩

namespace Schema

/-! ## 3. The hooks -/

/-- The entry with a text for a plain scalar. -/
structure Converts (entry converted : Key × Value) : Prop where
  key : converted.1 = entry.1
  value : scalarToText entry.1 entry.2 = .ok converted.2

theorem entriesToText_eq_ok_iff {entries converted : List (Key × Value)} :
    entriesToText entries = .ok converted ↔ List.Forall₂ Converts entries converted := by
  induction entries generalizing converted with
  | nil =>
    rw [List.forall₂_nil_left_iff]
    exact ⟨fun h => (Except.ok.inj h).symm, fun h => h.symm ▸ rfl⟩
  | cons entry entries ih =>
    obtain ⟨key, value⟩ := entry
    rw [List.forall₂_cons_left_iff]
    unfold entriesToText
    constructor
    · intro h
      obtain ⟨text, htext, h⟩ := bind_eq_ok_iff.mp h
      obtain ⟨rest, hrest, h⟩ := bind_eq_ok_iff.mp h
      cases h
      exact ⟨(key, text), rest, ⟨rfl, htext⟩, ih.mp hrest, rfl⟩
    · rintro ⟨⟨_, text⟩, rest, ⟨rfl, htext⟩, hrest, rfl⟩
      dsimp only at htext
      rw [htext, ok_bind, ih.mpr hrest]
      rfl

/-- Only a map becomes a map, entry by entry. -/
theorem scalarsToText_eq_map_iff {value : Value} {converted : List (Key × Value)} :
    scalarsToText value = .ok (.map converted) ↔
      ∃ entries, value = .map entries ∧ List.Forall₂ Converts entries converted := by
  cases value with
  | scalar s =>
    refine iff_of_false (fun h => ?_) (by rintro ⟨_, h, -⟩; cases h)
    cases Except.ok.inj h
  | list items =>
    refine iff_of_false (fun h => ?_) (by rintro ⟨_, h, -⟩; cases h)
    cases Except.ok.inj h
  | map entries =>
    unfold scalarsToText
    rw [bind_eq_ok_iff]
    constructor
    · rintro ⟨found, hfound, h⟩
      cases h
      exact ⟨entries, rfl, entriesToText_eq_ok_iff.mp hfound⟩
    · rintro ⟨_, h, hconverts⟩
      cases h
      exact ⟨converted, entriesToText_eq_ok_iff.mpr hconverts, rfl⟩

theorem checkNames_eq_ok_iff {definitions accepted : List (String × String)} :
    checkNames definitions = .ok accepted ↔
      accepted = definitions ∧ ∀ d ∈ definitions, Text.isName d.1.toList = true := by
  unfold checkNames
  split
  · next name text hfound =>
    refine iff_of_false (fun h => by cases h) fun ⟨_, hall⟩ => ?_
    have hrefused := List.find?_some hfound
    rw [hall _ (List.mem_of_find?_eq_some hfound)] at hrefused
    cases hrefused
  · next hnone =>
    have hall := List.find?_eq_none.mp hnone
    refine ⟨fun h => ⟨(Except.ok.inj h).symm, fun d hd => ?_⟩, fun h => congrArg _ h.1.symm⟩
    simpa using hall d hd

/-! ## 4. Definitions -/

/-- What an entry of a schema becomes on its way to a definition. -/
structure Defines (entry : Key × Value) (definition : String × String) : Prop where
  name : entry.1.IsText definition.1
  text : ∃ converted, scalarToText entry.1 entry.2 = .ok converted ∧ converted.IsText definition.2

end Schema

/-- **The definitions of an accepted schema** are the entries of its map, with texts for plain
    scalars and under names. -/
theorem FieldCheck.Lawful.definitions {check : FieldCheck} (lawful : check.Lawful)
    {fields : List (String × Value)} {schema : Schema} {value : Value}
    (h : check Schema.scalarsToText Schema.checkNames fields = .ok schema)
    (hvalue : Entries.find? "definitions" fields = some value) :
    ∃ entries texts, value = .map entries ∧ List.Forall₂ Schema.Defines entries texts ∧
      schema.definitions = Entries.putAll texts [] ∧
        ∀ d ∈ schema.definitions, Text.isName d.1.toList = true := by
  obtain ⟨converted, texts, hbefore, htexts, hafter⟩ := lawful.accepted h hvalue
  obtain ⟨entries, rfl, hconverts⟩ := Schema.scalarsToText_eq_map_iff.mp hbefore
  obtain ⟨hsame, hnames⟩ := Schema.checkNames_eq_ok_iff.mp hafter
  refine ⟨entries, texts, rfl, ?_, hsame, hsame ▸ hnames⟩
  refine (forall₂_comp_iff.mpr ⟨converted, hconverts, htexts⟩).imp ?_
  rintro entry definition ⟨⟨key, value⟩, ⟨rfl, hvalue⟩, hname, htext⟩
  exact ⟨hname, value, hvalue, htext⟩

/-- A schema with one definition is accepted if that has a text and a name. -/
theorem FieldCheck.Lawful.accepts {check : FieldCheck} (lawful : check.Lawful)
    (version : String) {name text : String} {value : Value}
    (hvalue : Schema.scalarToText (Key.text name) value = .ok (.string text))
    (hname : Text.isName name.toList = true) :
    check Schema.scalarsToText Schema.checkNames
        [("version", .string version), ("definitions", .map [(Key.text name, value)])] =
      .ok ⟨version, [(name, text)]⟩ := by
  have hbefore : Schema.scalarsToText (.map [(Key.text name, value)]) =
      .ok (.map ([(name, text)].map fun text => (Key.text text.1, Value.string text.2))) :=
    Schema.scalarsToText_eq_map_iff.mpr ⟨_, rfl, .cons ⟨rfl, hvalue⟩ .nil⟩
  have hnodup : ([(name, text)].map Prod.fst).Nodup := List.pairwise_singleton _ _
  exact lawful.passed hnodup hbefore
    (Schema.checkNames_eq_ok_iff.mpr ⟨rfl, List.forall_mem_singleton.mpr hname⟩)

end Sigil

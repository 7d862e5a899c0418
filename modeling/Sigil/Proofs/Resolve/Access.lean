import Mathlib.Data.List.Forall2
import Sigil.Proofs.Expr.Shape
import Sigil.Resolve.Definitions

/-!
# What a name stands for, and what a member access picks

A name stands for the tree that is entered under it, if there is one. A member access on an object
picks the value of its first field of that key, on a symbol or a further access it picks nothing,
and on anything else it fails. What is picked is a child of the target.
-/

namespace Sigil

/-! ## 1. Definitions -/

/-- What is found under a key is entered there. -/
theorem Entries.mem_of_find? {κ α : Type} [DecidableEq κ] {key : κ} {value : α}
    {entries : List (κ × α)} (h : Entries.find? key entries = some value) :
    (key, value) ∈ entries := by
  induction entries with
  | nil => cases h
  | cons entry rest ih =>
    unfold Entries.find? at h
    by_cases hkey : entry.1 = key
    · rw [if_pos hkey] at h
      cases h
      rw [← hkey]
      exact List.mem_cons_self
    · rw [if_neg hkey] at h
      exact List.mem_cons_of_mem _ (ih h)

/-- Reading all values leaves the keys as they are. -/
theorem Entries.find?_map {κ α β : Type} [DecidableEq κ] (key : κ) (f : α → β)
    (entries : List (κ × α)) :
    Entries.find? key (entries.map fun entry => (entry.1, f entry.2)) =
      (Entries.find? key entries).map f := by
  induction entries with
  | nil => rfl
  | cons entry rest ih =>
    rw [List.map_cons, Entries.find?, Entries.find?, ih]
    split <;> rfl

theorem Definitions.mem_of_expansion {definitions : Definitions} {name : String} {d : Expr}
    (h : definitions.expansion name = .ok (some d)) : (name, .ok d) ∈ definitions := by
  unfold Definitions.expansion at h
  split at h
  · cases h
  · next expanded hfound =>
    cases h
    exact Entries.mem_of_find? hfound
  · cases h

/-- A name stands for nothing if the registry has no text for it. -/
theorem Registry.expansion_eq_none_iff {r : Registry} {name : String} :
    r.definitions.expansion name = .ok none ↔ r.find? name = none := by
  unfold Definitions.expansion Registry.find? Registry.definitions
  rw [Entries.find?_map]
  cases Entries.find? name r.entries with
  | none => simp
  | some text =>
    rw [Option.map_some]
    cases Expr.ofText text <;> simp

/-- A name stands for a tree if the registry has a text for it that is read as that tree. -/
theorem Registry.expansion_eq_some_iff {r : Registry} {name : String} {d : Expr} :
    r.definitions.expansion name = .ok (some d) ↔
      ∃ text, r.find? name = some text ∧ Expr.ofText text = .ok d := by
  unfold Definitions.expansion Registry.find? Registry.definitions
  rw [Entries.find?_map]
  cases Entries.find? name r.entries with
  | none => simp
  | some text =>
    rw [Option.map_some]
    cases hread : Expr.ofText text <;> simp [hread]

/-- A name stands for the same wherever it has the same text. -/
theorem Registry.expansion_congr {r r' : Registry} {name : String}
    (h : r'.find? name = r.find? name) :
    r'.definitions.expansion name = r.definitions.expansion name := by
  unfold Definitions.expansion Registry.definitions
  rw [Entries.find?_map, Entries.find?_map]
  unfold Registry.find? at h
  rw [h]

namespace Expr

/-! ## 2. Member accesses -/

theorem select_eq_none_iff {target : Expr} {field : String} :
    target.select field = .ok none ↔ target.isSymbolic = true := by
  cases target with
  | object fields =>
    simp only [select, isSymbolic]
    cases field? fields field <;> simp
  | _ => simp [select, isSymbolic]

theorem select_eq_some_iff {target picked : Expr} {field : String} :
    target.select field = .ok (some picked) ↔
      ∃ fields, target = .object fields ∧ field? fields field = some picked := by
  cases target with
  | object fields =>
    simp only [select, object.injEq, exists_eq_left']
    cases field? fields field <;> simp
  | _ => simp [select]

theorem field?_cons (key field : String) (value : Expr) (fields : List (String × Expr)) :
    field? ((key, value) :: fields) field =
      if key = field then some value else field? fields field := by
  by_cases h : key = field <;> simp [field?, h]

theorem mem_of_field? {fields : List (String × Expr)} {field : String} {picked : Expr}
    (h : field? fields field = some picked) : picked ∈ fields.map Prod.snd := by
  obtain ⟨entry, he, rfl⟩ := Option.map_eq_some_iff.mp h
  exact List.mem_map_of_mem (List.mem_of_find?_eq_some he)

/-- What is picked from an object is one of its children. -/
theorem mem_children_of_select {target picked : Expr} {field : String}
    (h : target.select field = .ok (some picked)) : picked ∈ target.children := by
  obtain ⟨fields, rfl, hf⟩ := select_eq_some_iff.mp h
  exact mem_of_field? hf

/-- Over other values, each related to the one before, an object has the same fields. -/
theorem field?_zip {R : Expr → Expr → Prop} {fields : List (String × Expr)} {values : List Expr}
    (h : List.Forall₂ R (fields.map Prod.snd) values) {field : String} {picked : Expr}
    (hp : field? ((fields.map Prod.fst).zip values) field = some picked) :
    ∃ before, field? fields field = some before ∧ R before picked := by
  induction fields generalizing values with
  | nil => simp [field?] at hp
  | cons entry fields ih =>
    obtain ⟨key, before⟩ := entry
    obtain ⟨value, values', hv, hrest, rfl⟩ := List.forall₂_cons_left_iff.mp h
    rw [List.map_cons, List.zip_cons_cons, field?_cons] at hp
    rw [field?_cons]
    by_cases hk : key = field
    · rw [if_pos hk] at hp ⊢
      exact ⟨before, rfl, Option.some.inj hp ▸ hv⟩
    · rw [if_neg hk] at hp ⊢
      exact ih hrest hp

end Expr

end Sigil

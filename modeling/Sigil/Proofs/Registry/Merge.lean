import Mathlib.Data.List.Induction
import Sigil.Proofs.Rows
import Sigil.Registry

/-!
# Registries on top of each other

Putting pairs in turn makes their table: each name once, as first mentioned, with its last text
(`isTable_putAll`), and a table on top is all of its pairs on top (`putAll_putAll`). A registry as a
source gives the registry back (`ofSource_toSource`), so one registry can always be put on top of
another (`ofTwo_toSource`). A name that the upper one does not define keeps its text
(`find?_putAll_of_not_mem`), and another one has the text that was put last (`find?_putAll`).
-/

namespace Sigil

/-! ## 1. Entries -/

namespace Entries

variable {κ α : Type} [DecidableEq κ]

theorem find?_append (key : κ) (pairs entries : List (κ × α)) :
    find? key (pairs ++ entries) = (find? key pairs).or (find? key entries) := by
  induction pairs with
  | nil => rfl
  | cons pair pairs ih =>
    by_cases h : pair.1 = key
    · simp [find?, h]
    · simp [find?, h, ih]

theorem isSome_find?_iff {key : κ} {entries : List (κ × α)} :
    (find? key entries).isSome = true ↔ key ∈ entries.map Prod.fst := by
  induction entries with
  | nil => simp [find?]
  | cons entry entries ih =>
    by_cases h : entry.1 = key
    · simp [find?, h]
    · simp [find?, h, Ne.symm h, ih]

theorem find?_eq_none_of_not_mem {key : κ} {entries : List (κ × α)}
    (h : key ∉ entries.map Prod.fst) :
    find? key entries = none :=
  Option.not_isSome_iff_eq_none.mp fun hsome => h (isSome_find?_iff.mp hsome)

/-- Under a key stands what was put there last. -/
theorem find?_putAll (key : κ) (pairs entries : List (κ × α)) :
    find? key (putAll pairs entries) = (find? key pairs.reverse).or (find? key entries) := by
  induction pairs generalizing entries with
  | nil => rfl
  | cons pair pairs ih =>
    have hrest : find? key (putAll (pair :: pairs) entries) =
        (find? key pairs.reverse).or (find? key (put pair.1 pair.2 entries)) := ih _
    have hput : find? key (put pair.1 pair.2 entries) =
        (find? key [pair]).or (find? key entries) := by
      rw [find?_put]
      by_cases h : pair.1 = key
      · simp [find?, h]
      · simp [find?, h]
    rw [hrest, hput, List.reverse_cons, find?_append, Option.or_assoc]

/-- Putting pairs leaves all other keys alone. -/
theorem find?_putAll_of_not_mem {key : κ} {pairs entries : List (κ × α)}
    (h : key ∉ pairs.map Prod.fst) :
    find? key (putAll pairs entries) = find? key entries := by
  have hnone : find? key pairs.reverse = none := find?_eq_none_of_not_mem (by simpa using h)
  rw [find?_putAll, hnone, Option.none_or]

/-- Where all keys have the same value, this is found under each of them. -/
theorem find?_map_const {key : κ} {keys : List κ} (h : key ∈ keys) (value : α) :
    find? key (keys.map fun k => (k, value)) = some value := by
  induction keys with
  | nil => cases h
  | cons k keys ih =>
    rw [List.map_cons, find?]
    by_cases hk : k = key
    · rw [if_pos hk]
    · rw [if_neg hk]
      exact ih ((List.mem_cons.mp h).resolve_left (Ne.symm hk))

/-- Where each key stands once, the order does not count. -/
theorem find?_reverse (key : κ) {entries : List (κ × α)} (h : (entries.map Prod.fst).Nodup) :
    find? key entries.reverse = find? key entries := by
  have hputAll : putAll entries [] = entries := putAll_of_nodup h
  have hfind := find?_putAll key entries []
  rw [hputAll] at hfind
  rw [hfind]
  exact (Option.or_none).symm

/-- Pairs can be put together first, each key with its last value. -/
theorem find?_putAll_putAll (key : κ) (pairs entries : List (κ × α)) :
    find? key (putAll (putAll pairs []) entries) =
      (find? key pairs.reverse).or (find? key entries) := by
  have hempty : (([] : List (κ × α)).map Prod.fst).Nodup := List.nodup_nil
  have hpairs : find? key (putAll pairs []) = find? key pairs.reverse :=
    (find?_putAll key pairs []).trans Option.or_none
  rw [find?_putAll, find?_reverse key (nodup_putAll pairs hempty), hpairs]

/-- Pairs that are put one list after the other. -/
theorem putAll_append (front back entries : List (κ × α)) :
    putAll (front ++ back) entries = putAll back (putAll front entries) := List.foldl_append

/-- The table of some pairs: each key once, in the order of first mention, with its last value. -/
structure IsTable (pairs table : List (κ × α)) : Prop where
  keys : table.map Prod.fst = (pairs.map Prod.fst).eraseDups
  values : ∀ key, find? key table = find? key pairs.reverse

/-- The keys stand in the order of first mention. -/
theorem map_fst_putAll (pairs : List (κ × α)) :
    (putAll pairs []).map Prod.fst = (pairs.map Prod.fst).eraseDups := by
  -- from the right, as a later pair either replaces a text in place or is put behind
  induction pairs using List.reverseRecOn with
  | nil => rfl
  | append_singleton pairs pair ih =>
    have hput : putAll (pairs ++ [pair]) [] = put pair.1 pair.2 (putAll pairs []) :=
      putAll_append pairs [pair] []
    rw [hput, map_fst_put, ih, List.map_append, List.eraseDups_append]
    by_cases hkey : pair.1 ∈ pairs.map Prod.fst
    · have hnone : [pair.1].removeAll (pairs.map Prod.fst) = [] :=
        List.filter_eq_nil_iff.mpr (by simpa using hkey)
      rw [if_pos (List.mem_eraseDups.mpr hkey), List.map_singleton, hnone]
      exact (List.append_nil _).symm
    · have hkept : [pair.1].removeAll (pairs.map Prod.fst) = [pair.1] :=
        List.filter_eq_self.mpr (by simpa using hkey)
      rw [if_neg (fun hmem => hkey (List.mem_eraseDups.mp hmem)), List.map_singleton, hkept]
      rfl

/-- **Putting pairs in turn makes their table.** -/
theorem isTable_putAll (pairs : List (κ × α)) : IsTable pairs (putAll pairs []) where
  keys := map_fst_putAll pairs
  values key := (find?_putAll key pairs []).trans Option.or_none

/-- Entries are the table of themselves, so pairs on top of them are put behind them. -/
theorem putAll_eq_putAll_append {entries : List (κ × α)} (h : (entries.map Prod.fst).Nodup)
    (pairs : List (κ × α)) : putAll pairs entries = putAll (entries ++ pairs) [] := by
  have hself : putAll entries [] = entries := putAll_of_nodup h
  rw [putAll_append, hself]

/-- What is found under a key stands there first. -/
theorem exists_append_of_find? {key : κ} {value : α} {entries : List (κ × α)}
    (h : find? key entries = some value) :
    ∃ before after, entries = before ++ (key, value) :: after ∧ key ∉ before.map Prod.fst := by
  induction entries with
  | nil => cases h
  | cons entry entries ih =>
    obtain ⟨k, v⟩ := entry
    rw [find?] at h
    by_cases hk : k = key
    · rw [if_pos hk] at h
      cases hk
      cases h
      exact ⟨[], entries, rfl, List.not_mem_nil⟩
    · rw [if_neg hk] at h
      obtain ⟨before, after, rfl, hbefore⟩ := ih h
      refine ⟨(k, v) :: before, after, rfl, ?_⟩
      rw [List.map_cons, List.mem_cons, not_or]
      exact ⟨Ne.symm hk, hbefore⟩

/-- What is found from the end on stands there last. -/
theorem find?_reverse_eq_some_iff {key : κ} {value : α} {pairs : List (κ × α)} :
    find? key pairs.reverse = some value ↔
      ∃ before after, pairs = before ++ (key, value) :: after ∧ key ∉ after.map Prod.fst := by
  constructor
  · intro h
    obtain ⟨after, before, hsplit, hafter⟩ := exists_append_of_find? h
    refine ⟨before.reverse, after.reverse, ?_, by simpa using hafter⟩
    rw [List.reverse_eq_iff.mp hsplit]
    simp
  · rintro ⟨before, after, rfl, hafter⟩
    have hnone : find? key after.reverse = none := find?_eq_none_of_not_mem (by simpa using hafter)
    rw [List.reverse_append, List.reverse_cons, List.append_assoc, find?_append, hnone,
      Option.none_or, List.singleton_append, find?, if_pos rfl]

/-- Entries with the same keys in the same order, and the same value under each of
    them, are the same. -/
theorem eq_of_find? {as bs : List (κ × α)} (hkeys : as.map Prod.fst = bs.map Prod.fst)
    (hnodup : (as.map Prod.fst).Nodup)
    (hvalues : ∀ key, find? key as = find? key bs) : as = bs := by
  induction as generalizing bs with
  | nil => exact (List.map_eq_nil_iff.mp hkeys.symm).symm
  | cons a as ih =>
    obtain ⟨b, bs, rfl, hkey, hrest⟩ := List.map_eq_cons_iff.mp hkeys.symm
    rw [List.map_cons, List.nodup_cons] at hnodup
    have hvalue : a.2 = b.2 := by simpa [find?, hkey] using hvalues a.1
    have htail (key : κ) : find? key as = find? key bs := by
      by_cases h : a.1 = key
      · rw [find?_eq_none_of_not_mem (h ▸ hnodup.1),
          find?_eq_none_of_not_mem (hrest ▸ h ▸ hnodup.1)]
      · simpa [find?, hkey, h] using hvalues key
    rw [Prod.ext hkey.symm hvalue, ih hrest.symm hnodup.2 htail]

/-- **Pairs can be put together first**: their table on top is all of them on top. -/
theorem putAll_putAll (pairs : List (κ × α)) {entries : List (κ × α)}
    (h : (entries.map Prod.fst).Nodup) :
    putAll (putAll pairs []) entries = putAll pairs entries := by
  refine eq_of_find? ?_ (nodup_putAll _ h) fun key => ?_
  · rw [putAll_eq_putAll_append h, putAll_eq_putAll_append h, map_fst_putAll, map_fst_putAll,
      List.map_append, List.map_append, map_fst_putAll, eraseDups_append_right]
  · rw [find?_putAll_putAll, find?_putAll]

end Entries

/-! ## 2. Registries -/

theorem Source.definitions_ofPairs (pairs : List (String × String)) :
    (ofPairs pairs).definitions = .ok pairs := by
  induction pairs with
  | nil => rfl
  | cons pair pairs ih =>
    have hrow : definition [.string pair.1, .string pair.2] = .ok pair := rfl
    unfold ofPairs at ih ⊢
    rw [List.map_cons, definitions, hrow, ih]
    rfl

namespace Registry

theorem ofSource_toSource (r : Registry) : ofSource r.toSource = .ok r := by
  have hentries : Entries.putAll r.entries [] = r.entries := Entries.putAll_of_nodup r.distinct
  unfold ofSource overlay toSource
  rw [Source.definitions_ofPairs]
  obtain ⟨entries, distinct⟩ := r
  exact congrArg Except.ok (by simp only [putAll, empty, hentries])

/-- One registry on top of another is always a registry. -/
theorem ofTwo_toSource (base top : Registry) :
    ofTwo base.toSource top.toSource = .ok (base.putAll top.entries) := by
  unfold ofTwo overlay
  rw [ofSource_toSource]
  unfold toSource
  rw [Source.definitions_ofPairs]
  rfl

/-- Four lists of definitions make an effective registry. -/
theorem ofLayers_ofPairs (builtins schema inline userTypes : List (String × String)) :
    ofLayers ⟨.ofPairs builtins, .ofPairs schema, .ofPairs inline, .ofPairs userTypes⟩ =
      .ok ((((empty.putAll builtins).putAll schema).putAll inline).putAll userTypes) := by
  unfold ofLayers ofSource overlay
  simp only [Source.definitions_ofPairs]
  rfl

/-- A name that the upper registry does not define keeps its text. -/
theorem find?_putAll_of_not_mem {base top : Registry} {name : String} (h : name ∉ top.names) :
    (base.putAll top.entries).find? name = base.find? name := Entries.find?_putAll_of_not_mem h

end Registry

end Sigil

/-!
# Entries in order of first mention

A table is kept as a list of entries with at most one entry a key. Putting a value under a key that
is there replaces the value and keeps the place; a new key goes to the end. So the keys stand in the
order in which they were first mentioned, each with the value mentioned last.
-/

namespace Sigil.Entries

variable {κ α : Type} [DecidableEq κ]

/-- The entries with this value under this key. -/
def put (key : κ) (value : α) : List (κ × α) → List (κ × α)
  | [] => [(key, value)]
  | (k, v) :: rest => if k = key then (k, value) :: rest else (k, v) :: put key value rest

/-- The entries after all these pairs, in turn. -/
def putAll (pairs : List (κ × α)) (entries : List (κ × α)) : List (κ × α) :=
  pairs.foldl (fun entries pair => put pair.1 pair.2 entries) entries

def find? (key : κ) : List (κ × α) → Option α
  | [] => none
  | (k, v) :: rest => if k = key then some v else find? key rest

/-- Putting changes the value under its own key only. -/
theorem find?_put (key k : κ) (value : α) (entries : List (κ × α)) :
    find? k (put key value entries) = if key = k then some value else find? k entries := by
  induction entries with
  | nil => simp [put, find?]
  | cons entry rest ih =>
    obtain ⟨l, v⟩ := entry
    by_cases h : l = key
    · subst h
      by_cases hk : l = k <;> simp [put, find?, hk]
    · by_cases hk : l = k
      · subst hk
        simp [put, find?, h, Ne.symm h]
      · simp [put, find?, h, hk, ih]

/-- The keys after putting: the same, or one more at the end. -/
theorem map_fst_put (key : κ) (value : α) (entries : List (κ × α)) :
    (put key value entries).map Prod.fst =
      if key ∈ entries.map Prod.fst then entries.map Prod.fst
      else entries.map Prod.fst ++ [key] := by
  induction entries with
  | nil => simp [put]
  | cons entry rest ih =>
    obtain ⟨l, v⟩ := entry
    by_cases h : l = key
    · simp [put, h]
    · have h' : ¬ key = l := fun e => h e.symm
      simp only [put, if_neg h, List.map_cons, ih, List.mem_cons, h', false_or]
      split <;> simp

theorem put_of_not_mem {key : κ} (value : α) {entries : List (κ × α)}
    (h : key ∉ entries.map Prod.fst) : put key value entries = entries ++ [(key, value)] := by
  induction entries with
  | nil => rfl
  | cons entry rest ih =>
    rw [List.map_cons, List.mem_cons, not_or] at h
    rw [put, if_neg (Ne.symm h.1), ih h.2, List.cons_append]

/-- Pairs with new keys, all different, go to the end as they are. -/
theorem putAll_of_nodup {pairs entries : List (κ × α)}
    (h : ((entries ++ pairs).map Prod.fst).Nodup) : putAll pairs entries = entries ++ pairs := by
  induction pairs generalizing entries with
  | nil => exact (List.append_nil entries).symm
  | cons pair rest ih =>
    have hsplit : entries ++ pair :: rest = entries ++ [pair] ++ rest := by simp
    have hnew : pair.1 ∉ entries.map Prod.fst := by
      rw [List.map_append, List.nodup_append] at h
      exact fun hmem => h.2.2 _ hmem _ List.mem_cons_self rfl
    rw [hsplit] at h ⊢
    rw [← ih h, putAll, List.foldl_cons, put_of_not_mem pair.2 hnew]
    rfl

theorem nodup_put (key : κ) (value : α) {entries : List (κ × α)}
    (h : (entries.map Prod.fst).Nodup) : ((put key value entries).map Prod.fst).Nodup := by
  rw [map_fst_put]
  split
  · exact h
  · next hk =>
    rw [List.nodup_append]
    refine ⟨h, by simp, fun a ha b hb => ?_⟩
    rw [List.mem_singleton.1 hb]
    exact fun e => hk (e ▸ ha)

/-- Keys stay pairwise different, however many pairs are put. -/
theorem nodup_putAll (pairs : List (κ × α)) {entries : List (κ × α)}
    (h : (entries.map Prod.fst).Nodup) : ((putAll pairs entries).map Prod.fst).Nodup := by
  induction pairs generalizing entries with
  | nil => exact h
  | cons pair rest ih => exact ih (nodup_put pair.1 pair.2 h)

end Sigil.Entries

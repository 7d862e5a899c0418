import Mathlib.Data.List.Forall2

/-!
# Rows of results

Three kinds of facts that the proofs lean on: what it takes for one computation after another
to succeed or to fail, how relations between two rows of values compose, and where
repetitions may be dropped.
-/

namespace Sigil

/-- A composition succeeds if its first part does, and its second part from there. -/
theorem bind_eq_ok_iff {ε α β : Type} {x : Except ε α} {f : α → Except ε β} {b : β} :
    x >>= f = .ok b ↔ ∃ a, x = .ok a ∧ f a = .ok b := by
  cases x with
  | error e =>
    constructor
    · intro h
      cases h
    · rintro ⟨_, h, _⟩
      cases h
  | ok a =>
    constructor
    · intro h
      exact ⟨a, rfl, h⟩
    · rintro ⟨_, ha, h⟩
      cases ha
      exact h

/-- What fails in a composition is its first part or, after it, its second. -/
theorem bind_eq_error_iff {ε α β : Type} {x : Except ε α} {f : α → Except ε β} {e : ε} :
    x >>= f = .error e ↔ x = .error e ∨ ∃ a, x = .ok a ∧ f a = .error e := by
  cases x with
  | error cause =>
    constructor
    · intro h
      cases h
      exact .inl rfl
    · rintro (h | ⟨_, h, _⟩) <;> cases h
      rfl
  | ok a =>
    constructor
    · exact fun h => .inr ⟨a, rfl, h⟩
    · rintro (h | ⟨_, ha, h⟩)
      · cases h
      · cases ha
        exact h

@[simp] theorem ok_bind {ε α β : Type} (a : α) (f : α → Except ε β) :
    (Except.ok a : Except ε α) >>= f = f a := rfl

/-- A changed result is a result before. -/
theorem map_eq_ok_iff {ε α β : Type} {x : Except ε α} {f : α → β} {b : β} :
    x.map f = .ok b ↔ ∃ a, x = .ok a ∧ f a = b := by
  cases x with
  | error e =>
    constructor
    · intro h
      cases h
    · rintro ⟨_, h, _⟩
      cases h
  | ok a =>
    constructor
    · intro h
      exact ⟨a, rfl, Except.ok.inj h⟩
    · rintro ⟨_, ha, rfl⟩
      cases ha
      rfl

theorem mapError_eq_ok_iff {ε δ α : Type} {x : Except ε α} {f : ε → δ} {a : α} :
    x.mapError f = .ok a ↔ x = .ok a := by
  cases x <;> simp [Except.mapError]

/-- A changed fault is a fault before. -/
theorem mapError_eq_error_iff {ε δ α : Type} {x : Except ε α} {f : ε → δ} {d : δ} :
    x.mapError f = .error d ↔ ∃ e, x = .error e ∧ f e = d := by
  cases x <;> simp [Except.mapError]

variable {α β γ : Type} {R : α → β → Prop} {S : β → γ → Prop}

/-- Two rows are related through a third one if they are related through some value in
    each place. -/
theorem forall₂_comp_iff {as : List α} {cs : List γ} :
    List.Forall₂ (fun a c => ∃ b, R a b ∧ S b c) as cs ↔
      ∃ bs, List.Forall₂ R as bs ∧ List.Forall₂ S bs cs := by
  induction as generalizing cs with
  | nil => simp
  | cons a as ih =>
    simp only [List.forall₂_cons_left_iff, ih]
    constructor
    · rintro ⟨c, cs', ⟨b, hab, hbc⟩, ⟨bs, hR, hS⟩, rfl⟩
      exact ⟨b :: bs, ⟨b, bs, hab, hR, rfl⟩, .cons hbc hS⟩
    · rintro ⟨_, ⟨b, bs, hab, hR, rfl⟩, hS⟩
      obtain ⟨c, cs', hbc, hrest, rfl⟩ := List.forall₂_cons_left_iff.mp hS
      exact ⟨c, cs', ⟨b, hab, hbc⟩, ⟨bs, hR, hrest⟩, rfl⟩

/-- Each value of the second row is related to some value of the first. -/
theorem forall_mem_of_forall₂ {as : List α} {bs : List β} (h : List.Forall₂ R as bs) :
    ∀ b ∈ bs, ∃ a ∈ as, R a b := by
  induction h with
  | nil => exact fun _ hb => absurd hb List.not_mem_nil
  | cons hab _ ih =>
    intro b hb
    rcases List.mem_cons.mp hb with rfl | hb
    · exact ⟨_, List.mem_cons_self, hab⟩
    · obtain ⟨a, ha, hR⟩ := ih b hb
      exact ⟨a, List.mem_cons_of_mem _ ha, hR⟩

/-- What holds in each place from some count on holds in all places from some count on. -/
theorem forall₂_from {P : Nat → α → β → Prop} {as : List α} {bs : List β}
    (h : List.Forall₂ (fun a b => ∃ K, ∀ k, K ≤ k → P k a b) as bs) :
    ∃ K, ∀ k, K ≤ k → List.Forall₂ (P k) as bs := by
  induction h with
  | nil => exact ⟨0, fun _ _ => .nil⟩
  | cons hab _ ih =>
    obtain ⟨K, hK⟩ := hab
    obtain ⟨L, hL⟩ := ih
    refine ⟨max K L, fun k hk => ?_⟩
    have hKk : K ≤ k := Nat.le_trans (Nat.le_max_left K L) hk
    have hLk : L ≤ k := Nat.le_trans (Nat.le_max_right K L) hk
    exact .cons (hK k hKk) (hL k hLk)

/-- Lists that a function sends to the same entries, one by one. -/
theorem map_eq_map_of_forall₂ {f : α → γ} {as bs : List α}
    (h : List.Forall₂ (fun a b => f a = f b) as bs) : as.map f = bs.map f := by
  induction h with
  | nil => rfl
  | cons hab _ ih => rw [List.map_cons, List.map_cons, hab, ih]

/-- A relation between two rows need only be followed between what stands in them. -/
theorem forall₂_imp_of_mem {R S : α → β → Prop} {as : List α} {bs : List β}
    (h : List.Forall₂ R as bs)
    (himp : ∀ a ∈ as, ∀ b ∈ bs, R a b → S a b) : List.Forall₂ S as bs := by
  refine List.forall₂_iff_zip.mpr ⟨h.length_eq, fun hab => ?_⟩
  obtain ⟨ha, hb⟩ := List.of_mem_zip hab
  exact himp _ ha _ hb (List.forall₂_zip h hab)

/-- Lists with the same entries under a function, one by one. -/
theorem forall₂_of_map_eq_map {f : α → γ} {as bs : List α} (h : as.map f = bs.map f) :
    List.Forall₂ (fun a b => f a = f b) as bs := by
  have hrow : List.Forall₂ (· = ·) (as.map f) (bs.map f) := h ▸ List.forall₂_refl _
  exact List.forall₂_map_right_iff.mp (List.forall₂_map_left_iff.mp hrow)

section

variable {α β : Type} [DecidableEq α]

/-- Induction over the entries of a list that are left when the first one is taken out
    everywhere. -/
theorem erase_induction {motive : List α → Prop} (nil : motive [])
    (cons : ∀ a l, motive (l.filter fun b => !b == a) → motive (a :: l)) (l : List α) :
    motive l := by
  induction hn : l.length using Nat.strongRecOn generalizing l with
  | ind n ih =>
    cases l with
    | nil => exact nil
    | cons a l =>
      have hle : (l.filter fun b => !b == a).length ≤ l.length := List.length_filter_le _ l
      exact cons a l (ih _ (hn ▸ Nat.lt_succ_of_le hle) _ rfl)

theorem eraseDups_filter (p : α → Bool) (l : List α) :
    (l.filter p).eraseDups = l.eraseDups.filter p := by
  induction l using erase_induction with
  | nil => rfl
  | cons a l ih =>
    rw [List.eraseDups_cons]
    by_cases hp : p a = true
    · rw [List.filter_cons_of_pos hp, List.filter_cons_of_pos hp, List.eraseDups_cons, ← ih,
        List.filter_comm]
    · have hl : (l.filter p).filter (fun b => !b == a) = l.filter p := by
        refine List.filter_eq_self.mpr fun b hb => ?_
        have hne : b ≠ a := fun h => hp (h ▸ (List.mem_filter.mp hb).2)
        simpa using hne
      rw [List.filter_cons_of_neg hp, List.filter_cons_of_neg hp, ← ih, List.filter_comm, hl]

theorem eraseDups_eraseDups (l : List α) : l.eraseDups.eraseDups = l.eraseDups := by
  induction l using erase_induction with
  | nil => rfl
  | cons a l ih =>
    rw [List.eraseDups_cons, List.eraseDups_cons, eraseDups_filter, ih, ← eraseDups_filter,
      List.filter_filter]
    simp only [Bool.and_self]

/-- Repetitions may be dropped in the first part of a list before they are dropped in the whole. -/
theorem eraseDups_append_left (as bs : List α) :
    (as.eraseDups ++ bs).eraseDups = (as ++ bs).eraseDups := by
  have hsame : bs.removeAll as.eraseDups = bs.removeAll as := by
    refine List.filter_congr fun b _ => ?_
    simp
  rw [List.eraseDups_append, List.eraseDups_append, eraseDups_eraseDups, hsame]

/-- Repetitions may be dropped in the last part of a list before they are dropped in the whole. -/
theorem eraseDups_append_right (as bs : List α) :
    (as ++ bs.eraseDups).eraseDups = (as ++ bs).eraseDups := by
  rw [List.eraseDups_append, List.eraseDups_append]
  unfold List.removeAll
  rw [← eraseDups_filter, eraseDups_eraseDups]

/-- Repetitions may be dropped in each row before they are dropped in all rows together. -/
theorem eraseDups_flatMap (f : β → List α) (l : List β) :
    (l.flatMap fun b => (f b).eraseDups).eraseDups = (l.flatMap f).eraseDups := by
  induction l with
  | nil => rfl
  | cons b l ih =>
    rw [List.flatMap_cons, List.flatMap_cons, eraseDups_append_left, ← eraseDups_append_right, ih,
      eraseDups_append_right]

end

end Sigil

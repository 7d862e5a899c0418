import Mathlib.Data.List.Forall2

/-!
# Rows of texts

A row is written with a comma and a space between each two entries, and a bracket behind the last.
If each entry can be told from what follows it, then the whole row can, however many entries it has.
-/

namespace Sigil.Text

/-- The entries with a comma and a space between each two. -/
def row (entries : List (List Char)) : List Char := [',', ' '].intercalate entries

/-- What a row holds behind its first entry. -/
def rowTail : List (List Char) → List Char
  | [] => []
  | entry :: entries => ',' :: ' ' :: row (entry :: entries)

theorem row_cons (entry : List Char) (entries : List (List Char)) :
    row (entry :: entries) = entry ++ rowTail entries := by
  cases entries with
  | nil => exact List.intercalate_singleton.trans (List.append_nil entry).symm
  | cons next entries =>
    unfold row rowTail row
    rw [List.intercalate_cons_cons, List.append_assoc]
    rfl

variable {α : Type} {f : α → List Char} {R : α → α → Prop} {close : Char}

/-- Two rows that go on alike have the same number of entries, related one by one. -/
theorem row_unique (hclose : close ≠ ',') {as bs : List α}
    (hunique : ∀ a ∈ as, ∀ b ∈ bs, ∀ rest rest', f a ++ rest = f b ++ rest' → R a b ∧ rest = rest')
    (has : ∀ a ∈ as, ∀ rest rest', f a ++ rest ≠ close :: rest')
    (hbs : ∀ b ∈ bs, ∀ rest rest', f b ++ rest ≠ close :: rest') {rest rest' : List Char}
    (h : row (as.map f) ++ close :: rest = row (bs.map f) ++ close :: rest') :
    List.Forall₂ R as bs ∧ rest = rest' := by
  -- along both rows: behind an item stands a comma or the closing character, never both
  induction as generalizing bs with
  | nil =>
    cases bs with
    | nil => exact ⟨.nil, (List.cons.inj h).2⟩
    | cons b bs =>
      rw [List.map_cons, row_cons, List.append_assoc] at h
      exact absurd h.symm (hbs b List.mem_cons_self _ _)
  | cons a as ih =>
    rw [List.map_cons, row_cons, List.append_assoc] at h
    cases bs with
    | nil => exact absurd h (has a List.mem_cons_self _ _)
    | cons b bs =>
      rw [List.map_cons, row_cons, List.append_assoc] at h
      obtain ⟨hab, htails⟩ := hunique a List.mem_cons_self b List.mem_cons_self _ _ h
      cases as with
      | nil =>
        cases bs with
        | nil => exact ⟨.cons hab .nil, (List.cons.inj htails).2⟩
        | cons b' bs => exact absurd (List.cons.inj htails).1 hclose
      | cons a' as =>
        cases bs with
        | nil => exact absurd (List.cons.inj htails).1.symm hclose
        | cons b' bs =>
          have hrows := (List.cons.inj (List.cons.inj htails).2).2
          obtain ⟨hrest, hend⟩ := ih
            (fun x hx y hy => hunique x (List.mem_cons_of_mem _ hx) y (List.mem_cons_of_mem _ hy))
            (fun x hx => has x (List.mem_cons_of_mem _ hx))
            (fun y hy => hbs y (List.mem_cons_of_mem _ hy)) hrows
          exact ⟨.cons hab hrest, hend⟩

end Sigil.Text

import Sigil.Text.Name

/-!
# Segments of a text

A text may begin with a segment whose end shows in the next character. Two texts that are equal then
have equal segments, and go on alike.
-/

namespace Sigil.Text

/-- No character of this kind stands first. -/
def EndsAt (kind : Char → Bool) (rest : List Char) : Prop := ∀ c ∈ rest.head?, kind c = false

theorem endsAt_cons {kind : Char → Bool} {c : Char} {rest : List Char} :
    EndsAt kind (c :: rest) ↔ kind c = false := by
  simp [EndsAt]

/-- A text that is cut short ends the segment before it as it did. -/
theorem EndsAt.of_prefix {kind : Char → Bool} {rest rest' : List Char} (h : EndsAt kind rest)
    (hcut : rest' <+: rest) : EndsAt kind rest' := by
  obtain ⟨more, rfl⟩ := hcut
  cases rest' with
  | nil => exact fun _ hc => absurd hc (Option.not_mem_none _)
  | cons c cs => exact endsAt_cons.mpr (endsAt_cons.mp h)

theorem endsAt_dropWhile (kind : Char → Bool) (cs : List Char) :
    EndsAt kind (cs.dropWhile kind) := by
  intro c hc
  have hhead := List.head?_dropWhile_not kind cs
  rwa [Option.mem_def.mp hc] at hhead

theorem takeWhile_eq_nil_iff {kind : Char → Bool} {rest : List Char} :
    rest.takeWhile kind = [] ↔ EndsAt kind rest := by
  cases rest with
  | nil => simp [EndsAt]
  | cons c cs => cases h : kind c <;> simp [endsAt_cons, h]

/-- What follows a segment that has ended adds nothing to it. -/
theorem takeWhile_append_of_endsAt {kind : Char → Bool} (as : List Char) {bs : List Char}
    (h : EndsAt kind bs) : (as ++ bs).takeWhile kind = as.takeWhile kind := by
  rw [List.takeWhile_append, takeWhile_eq_nil_iff.mpr h, List.append_nil]
  split
  · next hall => exact ((List.takeWhile_prefix _).eq_of_length hall).symm
  · rfl

/-- Taking characters of one kind takes the segment and nothing of what follows. -/
theorem takeWhile_segment {kind : Char → Bool} {as bs : List Char} (ha : ∀ c ∈ as, kind c = true)
    (hb : EndsAt kind bs) : (as ++ bs).takeWhile kind = as := by
  rw [List.takeWhile_append_of_pos ha, takeWhile_eq_nil_iff.mpr hb, List.append_nil]

/-- A segment of characters of one kind ends where the first one of another kind stands. -/
theorem segment_unique {kind : Char → Bool} {as bs as' bs' : List Char}
    (ha : ∀ c ∈ as, kind c = true) (hb : EndsAt kind bs) (ha' : ∀ c ∈ as', kind c = true)
    (hb' : EndsAt kind bs') (h : as ++ bs = as' ++ bs') : as = as' ∧ bs = bs' := by
  induction as generalizing as' with
  | nil =>
    cases as' with
    | nil => exact ⟨rfl, h⟩
    | cons c as' =>
      -- the first character would be of the kind and not of it
      rw [List.nil_append, List.cons_append] at h
      rw [h, endsAt_cons] at hb
      rw [ha' c List.mem_cons_self] at hb
      cases hb
  | cons c as ih =>
    cases as' with
    | nil =>
      rw [List.nil_append, List.cons_append] at h
      rw [← h, endsAt_cons] at hb'
      rw [ha c List.mem_cons_self] at hb'
      cases hb'
    | cons c' as' =>
      obtain ⟨rfl, hrest⟩ := List.cons.inj h
      obtain ⟨rfl, rfl⟩ := ih (fun d hd => ha d (List.mem_cons_of_mem _ hd))
        (fun d hd => ha' d (List.mem_cons_of_mem _ hd)) hrest
      exact ⟨rfl, rfl⟩

end Sigil.Text

import Mathlib.Algebra.GroupWithZero.Nat
import Sigil.Proofs.Token.Lexes
import Sigil.Text.Lines

/-!
# Respaced texts

A text is respaced when each gap that holds a line end becomes a single space, and the gap at its
end nothing (`Respaced`). Its lexemes stay as they are, but for the strings that go over a line end:
these lose the line end. So the lexemes are the same if no string goes over a line end, and hold
fewer line ends if one does (`Lexes.respaced`).
-/

namespace Sigil

open Text (isSolid isBlank isLineEnd)

namespace Text

/-! ## 1. Gaps -/

/-- A line end is a blank. -/
theorem isBlank_of_isLineEnd {c : Char} (h : isLineEnd c = true) : isBlank c = true := by
  simp only [isLineEnd, isBlank, Bool.or_eq_true, Bool.and_eq_true, decide_eq_true_eq,
    beq_iff_eq] at h ⊢
  omega

theorem isLineEnd_of_solid {c : Char} (h : isBlank c = false) : isLineEnd c = false := by
  refine Bool.eq_false_iff.mpr fun hend => ?_
  rw [isBlank_of_isLineEnd hend] at h
  cases h

theorem forall_of_any_eq_false {kind : Char → Bool} {cs : List Char} (h : cs.any kind = false) :
    ∀ c ∈ cs, kind c = false :=
  fun c hc => Bool.eq_false_iff.mpr (List.any_eq_false.mp h c hc)

/-- How many line ends a text holds. -/
def lineEnds (cs : List Char) : Nat := cs.countP isLineEnd

theorem lineEnds_cons_lt (c : Char) {cs ds : List Char} (h : lineEnds cs < lineEnds ds) :
    lineEnds (c :: cs) < lineEnds (c :: ds) := by
  unfold lineEnds at h ⊢
  rw [List.countP_cons, List.countP_cons]
  exact Nat.add_lt_add_right h _

/-- The second text is the first one with a single space for each gap that holds a line end, and
    nothing for the gap at the end. -/
inductive Respaced : List Char → List Char → Prop where
  | finish {gap : List Char} (blank : ∀ c ∈ gap, isBlank c = true) : Respaced gap []
  | keep {c : Char} {cs ds : List Char} (within : isLineEnd c = false) (rest : Respaced cs ds) :
    Respaced (c :: cs) (c :: ds)
  | gap {gap cs ds : List Char} (blank : ∀ c ∈ gap, isBlank c = true)
    (broken : ∃ c ∈ gap, isLineEnd c = true) (rest : Respaced cs ds) :
    Respaced (gap ++ cs) (' ' :: ds)

/-- What is no blank is kept. -/
theorem Respaced.cons_inv {c : Char} {cs ds : List Char} (h : Respaced (c :: cs) ds)
    (hsolid : isBlank c = false) : ∃ ds', ds = c :: ds' ∧ Respaced cs ds' := by
  generalize htext : c :: cs = text at h
  -- a solid character is in no gap, so it was kept
  cases h with
  | finish blank =>
    rw [blank c (htext ▸ List.mem_cons_self)] at hsolid
    cases hsolid
  | keep _ rest =>
    cases htext
    exact ⟨_, rfl, rest⟩
  | @gap gap _ _ blank broken _ =>
    cases gap with
    | nil =>
      obtain ⟨_, hc, -⟩ := broken
      exact absurd hc List.not_mem_nil
    | cons b gap =>
      cases htext
      rw [blank c List.mem_cons_self] at hsolid
      cases hsolid

/-- A word without blanks is kept. -/
theorem Respaced.append_inv {word rest ds : List Char} (h : Respaced (word ++ rest) ds)
    (hsolid : ∀ c ∈ word, isBlank c = false) :
    ∃ rest', ds = word ++ rest' ∧ Respaced rest rest' := by
  induction word generalizing ds with
  | nil => exact ⟨ds, rfl, h⟩
  | cons c word ih =>
    obtain ⟨hc, hword⟩ := List.forall_mem_cons.mp hsolid
    obtain ⟨ds', rfl, hrest⟩ := h.cons_inv hc
    obtain ⟨rest', rfl, hrest'⟩ := ih hrest hword
    exact ⟨rest', rfl, hrest'⟩

/-- Up to the first blank nothing changes. -/
theorem Respaced.takeWhile_isSolid {cs ds : List Char} (h : Respaced cs ds) :
    cs.takeWhile isSolid = ds.takeWhile isSolid := by
  induction h with
  | @finish gap blank =>
    -- a gap starts with a blank on both sides, or is empty at the end
    cases gap with
    | nil => rfl
    | cons c gap =>
      have hc : isSolid c = false := by rw [isSolid, blank c List.mem_cons_self]; rfl
      exact List.takeWhile_cons_of_neg (Bool.eq_false_iff.mp hc)
  | @keep c _ _ _ _ ih => rw [List.takeWhile_cons, List.takeWhile_cons, ih]
  | @gap gap cs ds blank broken _ _ =>
    cases gap with
    | nil =>
      obtain ⟨_, hc, -⟩ := broken
      exact absurd hc List.not_mem_nil
    | cons c gap =>
      have hc : isSolid c = false := by rw [isSolid, blank c List.mem_cons_self]; rfl
      rw [List.cons_append, List.takeWhile_cons_of_neg (Bool.eq_false_iff.mp hc)]
      rfl

end Text

open Text (Respaced lineEnds isLineEnd_of_solid lineEnds_cons_lt)

namespace Lexeme

/-! ## 2. Strings -/

/-- Blanks in a string stand for themselves. -/
theorem Unescapes.of_gap {gap cs body value rest : List Char} (h : Unescapes body value)
    (hgap : ∀ c ∈ gap, isBlank c = true) (hsplit : gap ++ cs = body ++ '"' :: rest) :
    ∃ body' value', body = gap ++ body' ∧ value = gap ++ value' ∧ Unescapes body' value' ∧
      cs = body' ++ '"' :: rest := by
  induction gap generalizing body value with
  | nil => exact ⟨body, value, rfl, rfl, h, hsplit⟩
  -- an escape or a quote is no blank, so the gap is all plain characters
  | cons b gap ih =>
    obtain ⟨hb, hgap⟩ := List.forall_mem_cons.mp hgap
    cases h with
    | nil =>
      cases (List.cons.inj hsplit).1
      cases hb
    | plain _ _ tail =>
      obtain ⟨rfl, hrest⟩ := List.cons.inj hsplit
      obtain ⟨body', value', rfl, rfl, htail, hcs⟩ := ih tail hgap hrest
      exact ⟨body', value', rfl, rfl, htail, hcs⟩
    | escape _ _ =>
      cases (List.cons.inj hsplit).1
      cases hb

/-- Characters with an escape are no blanks. -/
theorem isBlank_of_unescape? {c d : Char} (h : unescape? c = some d) : isBlank c = false := by
  unfold unescape? at h
  split at h
  · rfl
  · rfl
  · rfl
  · rfl
  · cases h

/-- A string that stays within its line is kept as it is; another one loses line ends. -/
theorem Unescapes.respaced {body value rest ds : List Char} (h : Unescapes body value)
    (hr : Respaced (body ++ '"' :: rest) ds) :
    ∃ body' value' rest', ds = body' ++ '"' :: rest' ∧ Unescapes body' value' ∧
      Respaced rest rest' ∧
      ((body.any isLineEnd = false ∧ value' = value) ∨
        (body.any isLineEnd = true ∧ lineEnds value' < lineEnds value)) := by
  -- on the length, as an escape takes two characters and a gap several
  induction hlength : body.length using Nat.strongRecOn generalizing body value ds with
  | ind n ih =>
    subst hlength
    cases h with
    | nil =>
      obtain ⟨ds', rfl, hrest⟩ := hr.cons_inv rfl
      exact ⟨[], [], ds', rfl, .nil, hrest, .inl ⟨rfl, rfl⟩⟩
    | @escape c d body value stands tail =>
      obtain ⟨ds', rfl, hescape⟩ := hr.cons_inv rfl
      have hc := isBlank_of_unescape? stands
      obtain ⟨ds', rfl, hbody⟩ := Respaced.cons_inv hescape hc
      have hshorter : body.length < ('\\' :: c :: body).length := by
        rw [List.length_cons, List.length_cons]
        omega
      obtain ⟨body', value', rest', rfl, hbody', hrest, hcases⟩ := ih _ hshorter tail hbody rfl
      -- an escape names a solid character, so it holds no line end
      have hany : ('\\' :: c :: body).any isLineEnd = body.any isLineEnd := by
        have hc' : isLineEnd c = false := isLineEnd_of_solid hc
        have hbackslash : isLineEnd '\\' = false := rfl
        rw [List.any_cons, List.any_cons, hbackslash, hc', Bool.false_or, Bool.false_or]
      refine ⟨'\\' :: c :: body', d :: value', rest', rfl, .escape stands hbody', hrest, ?_⟩
      rw [hany]
      exact hcases.imp (fun h => ⟨h.1, congrArg _ h.2⟩) fun h => ⟨h.1, lineEnds_cons_lt d h.2⟩
    | @plain c body value noQuote noBackslash tail =>
      generalize htext : c :: body ++ '"' :: rest = text at hr
      -- a plain character may be kept, or be the first of a gap that is put together
      cases hr with
      | finish blank =>
        have hquote := blank '"' (htext ▸ List.mem_append_right _ List.mem_cons_self)
        cases hquote
      | keep within kept =>
        obtain ⟨rfl, rfl⟩ := List.cons.inj htext
        obtain ⟨body', value', rest', rfl, hbody', hrest, hcases⟩ :=
          ih _ (Nat.lt_succ_self _) tail kept rfl
        refine ⟨c :: body', c :: value', rest', rfl, .plain noQuote noBackslash hbody', hrest, ?_⟩
        rw [List.any_cons, within, Bool.false_or]
        exact hcases.imp (fun h => ⟨h.1, congrArg _ h.2⟩) fun h => ⟨h.1, lineEnds_cons_lt c h.2⟩
      | @gap gap cs _ blank broken kept =>
        have hwhole : Unescapes (c :: body) (c :: value) := .plain noQuote noBackslash tail
        obtain ⟨body₁, value₁, hbody, hvalue, htail, rfl⟩ := hwhole.of_gap blank htext.symm
        obtain ⟨b, hb, hend⟩ := broken
        -- the gap has a line end and the space for it has none, so there are fewer of them
        have hgap : 0 < lineEnds gap := List.countP_pos_iff.mpr ⟨b, hb, hend⟩
        have hshorter : body₁.length < (c :: body).length := by
          rw [hbody, List.length_append]
          exact Nat.lt_add_of_pos_left (List.length_pos_of_mem hb)
        obtain ⟨body', value', rest', rfl, hbody', hrest, hcases⟩ := ih _ hshorter htail kept rfl
        have hfewer : lineEnds value' ≤ lineEnds value₁ :=
          hcases.elim (fun h => Nat.le_of_eq (congrArg _ h.2)) fun h => Nat.le_of_lt h.2
        have hspace : lineEnds (' ' :: value') = lineEnds value' :=
          List.countP_cons_of_neg (by decide)
        refine ⟨' ' :: body', ' ' :: value', rest', rfl,
          .plain (by decide) (by decide) hbody', hrest, .inr ⟨?_, ?_⟩⟩
        · rw [hbody]
          exact List.any_eq_true.mpr ⟨b, List.mem_append_left _ hb, hend⟩
        · rw [hvalue, hspace]
          unfold lineEnds at hgap hfewer ⊢
          rw [List.countP_append]
          omega

/-! ## 3. Lexemes -/

/-- How many line ends a lexeme holds: those in the value of a string. -/
def lineEnds : Lexeme → Nat
  | .string value => Text.lineEnds value.toList
  | _ => 0

/-- A lexeme other than a string takes no blank. -/
theorem solid_of_lexemeAt {c : Char} {word rest : List Char} {x : Lexeme} (hquote : c ≠ '"')
    (hsolid : isBlank c = false) (found : lexemeAt c (word ++ rest) = .ok ⟨x, word.length⟩) :
    ∀ d ∈ word, isBlank d = false := by
  rw [← lexemeAt_takeWhile hquote hsolid] at found
  obtain ⟨word', rest', hsplit, hlength, -⟩ := longest_of_lexemeAt found
  have hfirst : word' <+: word ++ rest :=
    (hsplit ▸ List.prefix_append word' rest').trans (List.takeWhile_prefix isSolid)
  have hword : word' = word :=
    (List.prefix_of_prefix_length_le hfirst (List.prefix_append _ _)
      (Nat.le_of_eq hlength)).eq_of_length
      hlength
  intro d hd
  have hmem : d ∈ (word ++ rest).takeWhile isSolid := by
    rw [hsplit, hword]
    exact List.mem_append_left _ hd
  exact Text.isSolid_eq_true_iff.mp (List.all_eq_true.mp List.all_takeWhile d hmem)

/-- What becomes of a lexeme of a respaced text. -/
theorem lexemeAt_respaced {c : Char} {word rest ds : List Char} {x : Lexeme}
    (hsolid : isBlank c = false)
    (found : lexemeAt c (word ++ rest) = .ok ⟨x, word.length⟩) (hr : Respaced (word ++ rest) ds) :
    ∃ word' rest' y, ds = word' ++ rest' ∧ lexemeAt c (word' ++ rest') = .ok ⟨y, word'.length⟩ ∧
      Respaced rest rest' ∧
      ((word.any isLineEnd = false ∧ y = x) ∨
        (word.any isLineEnd = true ∧ y.lineEnds < x.lineEnds)) := by
  -- only a string can hold a blank, so any other lexeme is kept as it is
  by_cases hquote : c = '"'
  · subst hquote
    obtain ⟨body, value, rfl, hbody, rfl⟩ := string_word_of_lexemeAt found
    rw [List.append_assoc] at hr
    obtain ⟨body', value', rest', rfl, hbody', hrest, hcases⟩ := hbody.respaced hr
    have hany : (body ++ ['"']).any isLineEnd = body.any isLineEnd := by
      have hend : isLineEnd '"' = false := rfl
      rw [List.any_append, List.any_cons, hend, List.any_nil, Bool.or_false, Bool.or_false]
    refine ⟨body' ++ ['"'], rest', .string (String.ofList value'), by simp, ?_, hrest, ?_⟩
    · rw [List.append_assoc, List.length_append]
      exact lexemeAt_string hbody' rest'
    · rw [hany]
      refine hcases.imp (fun h => ⟨h.1, by rw [h.2]⟩) fun h => ⟨h.1, ?_⟩
      show Text.lineEnds (String.ofList value').toList < Text.lineEnds (String.ofList value).toList
      rw [String.toList_ofList, String.toList_ofList]
      exact h.2
  · have hword := solid_of_lexemeAt hquote hsolid found
    have hread : lexemeAt c ds = .ok ⟨x, word.length⟩ := by
      rw [← lexemeAt_takeWhile hquote hsolid, ← hr.takeWhile_isSolid,
        lexemeAt_takeWhile hquote hsolid]
      exact found
    obtain ⟨rest', rfl, hrest⟩ := hr.append_inv hword
    refine ⟨word, rest', x, rfl, hread, hrest, .inl ⟨?_, rfl⟩⟩
    exact List.any_eq_false.mpr fun d hd => Bool.eq_false_iff.mp (isLineEnd_of_solid (hword d hd))

end Lexeme

namespace Token

open Lexeme (lexemeAt)

/-! ## 4. Texts -/

/-- Whether a line end stands inside of a lexeme, where the next `pending` characters belong to the
    one before. Only a string can go over a line end. -/
def breaksFrom (pending : Nat) : List Char → Bool
  | [] => false
  | c :: cs =>
    match pending with
    | more + 1 => isLineEnd c || breaksFrom more cs
    | 0 =>
      if isBlank c then breaksFrom 0 cs
      else match lexemeAt c cs with
        | .ok found => breaksFrom found.extra cs
        | .error _ => false

/-- Whether a string of the text goes over a line end. -/
def breaksLine (s : String) : Bool := breaksFrom 0 s.toList

theorem breaksFrom_of_within {cs : List Char} (h : ∀ c ∈ cs, isLineEnd c = false) (pending : Nat) :
    breaksFrom pending cs = false := by
  induction cs generalizing pending with
  | nil => rfl
  | cons c cs ih =>
    obtain ⟨hc, hcs⟩ := List.forall_mem_cons.mp h
    cases pending with
    | succ more => rw [breaksFrom, hc, ih hcs]; rfl
    | zero =>
      rw [breaksFrom]
      split
      · exact ih hcs 0
      · split
        · exact ih hcs _
        · rfl

theorem breaksLine_of_within {s : String} (h : ∀ c ∈ s.toList, isLineEnd c = false) :
    breaksLine s = false := breaksFrom_of_within h 0

theorem breaksFrom_append (word rest : List Char) :
    breaksFrom word.length (word ++ rest) = (word.any isLineEnd || breaksFrom 0 rest) := by
  induction word with
  | nil => rfl
  | cons c word ih =>
    rw [List.length_cons, List.cons_append, breaksFrom, ih, List.any_cons, Bool.or_assoc]

theorem breaksFrom_lexeme {c : Char} {word rest : List Char} {x : Lexeme}
    (hsolid : isBlank c = false) (found : lexemeAt c (word ++ rest) = .ok ⟨x, word.length⟩) :
    breaksFrom 0 (c :: (word ++ rest)) = (word.any isLineEnd || breaksFrom 0 rest) := by
  rw [breaksFrom, hsolid, if_neg Bool.false_ne_true, found]
  exact breaksFrom_append word rest

theorem breaksFrom_gap {gap : List Char} (hgap : ∀ c ∈ gap, isBlank c = true) (cs : List Char) :
    breaksFrom 0 (gap ++ cs) = breaksFrom 0 cs := by
  induction gap with
  | nil => rfl
  | cons c gap ih =>
    obtain ⟨hc, hgap⟩ := List.forall_mem_cons.mp hgap
    rw [List.cons_append, breaksFrom, if_pos hc, ih hgap]

theorem Lexes.of_blank {c : Char} {cs : List Char} {xs : List Lexeme} (h : Lexes (c :: cs) xs)
    (hblank : isBlank c = true) : Lexes cs xs := by
  cases h with
  | blank _ rest => exact rest
  | lexeme solid _ _ =>
    rw [hblank] at solid
    cases solid

/-- Blanks in front change nothing. -/
theorem lexes_gap_iff {gap cs : List Char} {xs : List Lexeme} (hgap : ∀ c ∈ gap, isBlank c = true) :
    Lexes (gap ++ cs) xs ↔ Lexes cs xs := by
  induction gap with
  | nil => exact Iff.rfl
  | cons c gap ih =>
    obtain ⟨hc, hgap⟩ := List.forall_mem_cons.mp hgap
    exact ⟨fun h => (ih hgap).mp (h.of_blank hc), fun h => .blank hc ((ih hgap).mpr h)⟩

/-- How many line ends some lexemes hold. -/
def lineEnds (xs : List Lexeme) : Nat := (xs.map Lexeme.lineEnds).sum

theorem lineEnds_cons (x : Lexeme) (xs : List Lexeme) :
    lineEnds (x :: xs) = x.lineEnds + lineEnds xs :=
  List.sum_cons

/-- **The lexemes of a respaced text** are those of the text, if no string goes over a line end, and
    hold fewer line ends if one does. -/
theorem Lexes.respaced {cs ds : List Char} {xs : List Lexeme} (h : Lexes cs xs)
    (hr : Respaced cs ds) :
    ∃ ys, Lexes ds ys ∧
      ((breaksFrom 0 cs = false ∧ ys = xs) ∨
        (breaksFrom 0 cs = true ∧ lineEnds ys < lineEnds xs)) := by
  induction hlength : cs.length using Nat.strongRecOn generalizing cs ds xs with
  | ind n ih =>
    subst hlength
    cases hr with
    | finish blank =>
      have hgap : cs = cs ++ [] := (List.append_nil cs).symm
      rw [hgap] at h ⊢
      rw [breaksFrom_gap blank]
      exact ⟨xs, (lexes_gap_iff blank).mp h, .inl ⟨rfl, rfl⟩⟩
    | @gap gap cs ds blank broken kept =>
      obtain ⟨b, hb, -⟩ := broken
      have hshorter : cs.length < (gap ++ cs).length := by
        rw [List.length_append]
        exact Nat.lt_add_of_pos_left (List.length_pos_of_mem hb)
      obtain ⟨ys, hys, hcases⟩ := ih _ hshorter ((lexes_gap_iff blank).mp h) kept rfl
      rw [breaksFrom_gap blank]
      exact ⟨ys, .blank rfl hys, hcases⟩
    | @keep c cs ds within kept =>
      cases h with
      | blank hblank rest =>
        obtain ⟨ys, hys, hcases⟩ := ih _ (Nat.lt_succ_self _) rest kept rfl
        rw [breaksFrom, if_pos hblank]
        exact ⟨ys, .blank hblank hys, hcases⟩
      | @lexeme _ word rest x xs solid found next =>
        obtain ⟨word', rest', y, rfl, hread, hrest, hlexeme⟩ :=
          Lexeme.lexemeAt_respaced solid found kept
        have hshorter : rest.length < (c :: (word ++ rest)).length := by
          rw [List.length_cons, List.length_append]
          omega
        obtain ⟨ys, hys, hcases⟩ := ih _ hshorter next hrest rfl
        refine ⟨y :: ys, .lexeme solid hread hys, ?_⟩
        rw [breaksFrom_lexeme solid found, lineEnds_cons, lineEnds_cons]
        rcases hlexeme with ⟨hwithin, rfl⟩ | ⟨hbreaks, hfewer⟩
        · rw [hwithin, Bool.false_or]
          exact hcases.imp (fun h => ⟨h.1, congrArg _ h.2⟩) fun h =>
            ⟨h.1, Nat.add_lt_add_left h.2 _⟩
        · have hrests : lineEnds ys ≤ lineEnds xs :=
            hcases.elim (fun h => Nat.le_of_eq (congrArg _ h.2)) fun h => Nat.le_of_lt h.2
          rw [hbreaks, Bool.true_or]
          exact .inr ⟨rfl, Nat.add_lt_add_of_lt_of_le hfewer hrests⟩

end Token

end Sigil

import Sigil.Proofs.Expr.Place
import Sigil.Proofs.Token.Passed

/-!
# The lexemes of a text

Where a lexeme other than a string starts, it is read up to the first blank at most
(`lexemeAt_takeWhile`), and the blanks between lexemes are dropped. `Lexes` says which lexemes a
text has, without their places; and as reading is blind to places, it says what a text is read as
(`ofText_eq_ok_iff_lexes`).
-/

namespace Sigil

open Text (isDigit isNameChar isBlank)

namespace Text

/-! ## 1. Up to the first blank -/

/-- No blank. -/
def isSolid (c : Char) : Bool := !isBlank c

theorem isSolid_eq_true_iff {c : Char} : isSolid c = true ↔ isBlank c = false := by
  unfold isSolid
  rw [Bool.not_eq_true']

/-- Characters of a kind without blanks are taken before the first blank. -/
theorem takeWhile_takeWhile_isSolid {kind : Char → Bool}
    (h : ∀ c, kind c = true → isBlank c = false)
    (cs : List Char) : (cs.takeWhile isSolid).takeWhile kind = cs.takeWhile kind := by
  induction cs with
  | nil => rfl
  | cons c cs ih =>
    cases hkind : kind c with
    | true =>
      have hsolid : isSolid c = true := isSolid_eq_true_iff.mpr (h c hkind)
      rw [List.takeWhile_cons_of_pos hsolid, List.takeWhile_cons_of_pos hkind,
        List.takeWhile_cons_of_pos hkind, ih]
    | false =>
      have hneg : ¬ kind c = true := Bool.eq_false_iff.mp hkind
      rw [List.takeWhile_cons_of_neg hneg, List.takeWhile_cons]
      split
      · exact List.takeWhile_cons_of_neg hneg
      · rfl

theorem drop_takeWhile_isSolid {word rest : List Char} (h : ∀ c ∈ word, isSolid c = true) :
    ((word ++ rest).takeWhile isSolid).drop word.length = rest.takeWhile isSolid := by
  rw [List.takeWhile_append_of_pos h, List.drop_left]

end Text

namespace Lexeme

open Text

theorem isBlank_of_isDigit {c : Char} (h : isDigit c = true) : isBlank c = false :=
  (special_of_isNameChar (isNameChar_of_isDigit h)).2.2.2

theorem fractionOf_takeWhile (cs : List Char) :
    fractionOf (cs.takeWhile isSolid) = fractionOf cs := by
  cases cs with
  | nil => rfl
  | cons c cs =>
    rw [List.takeWhile_cons]
    by_cases hpoint : c = '.'
    · subst hpoint
      exact takeWhile_takeWhile_isSolid (fun _ => isBlank_of_isDigit) cs
    · split
      · simp [fractionOf, hpoint]
      · simp [fractionOf, hpoint]

/-- A number is read up to the first blank. -/
theorem numberAt_takeWhile (first : Char) (negative : Bool) (cs : List Char) :
    numberAt first negative (cs.takeWhile isSolid) = numberAt first negative cs := by
  have hwhole : (cs.takeWhile isSolid).takeWhile isDigit = cs.takeWhile isDigit :=
    takeWhile_takeWhile_isSolid (fun _ => isBlank_of_isDigit) cs
  have hrest : (cs.takeWhile isSolid).drop (cs.takeWhile isDigit).length =
      (cs.drop (cs.takeWhile isDigit).length).takeWhile isSolid := by
    have hdigits : ∀ c ∈ cs.takeWhile isDigit, isSolid c = true := fun c hc =>
      isSolid_eq_true_iff.mpr (isBlank_of_isDigit (List.all_eq_true.mp List.all_takeWhile c hc))
    have hsplit : cs.takeWhile isDigit ++ cs.drop (cs.takeWhile isDigit).length = cs :=
      List.prefix_iff_eq_append.mp (List.takeWhile_prefix _)
    have hdrop := @drop_takeWhile_isSolid _ (cs.drop (cs.takeWhile isDigit).length) hdigits
    rwa [hsplit] at hdrop
  unfold numberAt
  dsimp only
  rw [hwhole, hrest, fractionOf_takeWhile]

/-- A first character other than a blank is still the first one. -/
theorem head?_takeWhile_isSolid (c : Char) (cs : List Char) :
    cs.head? ≠ some c → (cs.takeWhile isSolid).head? ≠ some c := by
  intro h
  cases cs with
  | nil => exact h
  | cons d cs =>
    rw [List.takeWhile_cons]
    split
    · exact h
    · exact fun heq => by cases heq

/-- **A lexeme other than a string is read up to the first blank.** -/
theorem lexemeAt_takeWhile {c : Char} (hquote : c ≠ '"') (hsolid : isBlank c = false)
    (cs : List Char) :
    lexemeAt c (cs.takeWhile isSolid) = lexemeAt c cs := by
  by_cases hbang : c = '!'
  · subst hbang
    by_cases hequal : cs.head? = some '='
    · obtain ⟨ds, rfl⟩ := List.head?_eq_some_iff.mp hequal
      rw [List.takeWhile_cons_of_pos rfl]
      rfl
    · rw [lexemeAt_bang hequal, lexemeAt_bang (head?_takeWhile_isSolid _ cs hequal)]
  · by_cases hminus : c = '-'
    · subst hminus
      by_cases harrow : cs.head? = some '>'
      · obtain ⟨ds, rfl⟩ := List.head?_eq_some_iff.mp harrow
        rw [List.takeWhile_cons_of_pos rfl]
        rfl
      · rw [lexemeAt_minus harrow, lexemeAt_minus (head?_takeWhile_isSolid _ cs harrow),
          numberAt_takeWhile]
    -- numbers and words have no blank in them, so they end before the first one anyway
    · have hnumber : numberAt c false (c :: cs.takeWhile isSolid) = numberAt c false (c :: cs) := by
        rw [← numberAt_takeWhile c false (c :: cs),
          List.takeWhile_cons_of_pos (isSolid_eq_true_iff.mpr hsolid)]
      have hword : (cs.takeWhile isSolid).takeWhile isNameChar = cs.takeWhile isNameChar :=
        takeWhile_takeWhile_isSolid (fun _ h => (special_of_isNameChar h).2.2.2) cs
      rw [lexemeAt_plain hbang hminus hquote, lexemeAt_plain hbang hminus hquote, hnumber, hword]

end Lexeme

/-! ## 2. Lexemes without places -/

namespace Token

open Lexeme (lexemeAt)

/-- The lexemes of a text, from one to the next. -/
inductive Lexes : List Char → List Lexeme → Prop where
  | nil : Lexes [] []
  | blank {c : Char} {cs : List Char} {xs : List Lexeme} (blank : isBlank c = true)
    (rest : Lexes cs xs) :
    Lexes (c :: cs) xs
  | lexeme {c : Char} {word rest : List Char} {x : Lexeme} {xs : List Lexeme}
    (solid : isBlank c = false)
    (found : lexemeAt c (word ++ rest) = .ok ⟨x, word.length⟩) (next : Lexes rest xs) :
    Lexes (c :: (word ++ rest)) (x :: xs)

theorem lexes_of_passed {pos : Nat} {cs : List Char} {tokens : List Token}
    (h : Passed [] pos cs tokens) :
    Lexes cs (Expr.lexemes tokens) := by
  induction h with
  | nil => exact .nil
  | blank blank _ ih => exact .blank blank ih
  | lexeme solid found _ ih =>
    rw [List.append_nil] at found
    exact .lexeme solid found ih

theorem lexes_of_scanFrom {pos : Nat} {cs : List Char} {tokens : List Token}
    (h : scanFrom pos 0 cs = .ok tokens) :
    ∃ xs, Lexes cs xs ∧ Expr.lexemes tokens = xs ++ [.finish] := by
  obtain ⟨before, rfl, hpassed⟩ := exists_passed h
  exact ⟨_, lexes_of_passed hpassed, by rw [Expr.lexemes_append]; rfl⟩

theorem Lexes.passed {cs : List Char} {xs : List Lexeme} (h : Lexes cs xs) (pos : Nat) :
    ∃ tokens, Passed [] pos cs tokens ∧ Expr.lexemes tokens = xs := by
  induction h generalizing pos with
  | nil => exact ⟨[], .nil, rfl⟩
  | blank blank _ ih =>
    obtain ⟨tokens, hpassed, hlexemes⟩ := ih (pos + 1)
    exact ⟨tokens, .blank blank hpassed, hlexemes⟩
  | @lexeme c word rest x xs solid found _ ih =>
    obtain ⟨tokens, hpassed, hlexemes⟩ := ih (pos + 1 + word.length)
    rw [← List.append_nil rest] at found
    exact ⟨⟨x, pos⟩ :: tokens, .lexeme solid found hpassed, congrArg _ hlexemes⟩

theorem Lexes.scanFrom {cs : List Char} {xs : List Lexeme} (h : Lexes cs xs) (pos : Nat) :
    ∃ tokens, Token.scanFrom pos 0 cs = .ok tokens ∧ Expr.lexemes tokens = xs ++ [.finish] := by
  obtain ⟨tokens, hpassed, rfl⟩ := h.passed pos
  exact ⟨_, hpassed.scanFrom_nil, by rw [Expr.lexemes_append]; rfl⟩

/-- The end of the input is none of them. -/
theorem Lexes.finish_not_mem {cs : List Char} {xs : List Lexeme} (h : Lexes cs xs) :
    .finish ∉ xs := by
  induction h with
  | nil => exact List.not_mem_nil
  | blank _ _ ih => exact ih
  | lexeme _ found _ ih =>
    obtain ⟨_, _, _, _, hlongest⟩ := Lexeme.longest_of_lexemeAt found
    rw [List.mem_cons, not_or]
    exact ⟨hlongest.spelling.ne_finish.symm, ih⟩

/-- A text has its lexemes in one way. -/
theorem Lexes.unique {cs : List Char} {xs ys : List Lexeme} (h : Lexes cs xs) (h' : Lexes cs ys) :
    xs = ys := by
  obtain ⟨tokens, hscan, hxs⟩ := h.scanFrom 0
  obtain ⟨tokens', hscan', hys⟩ := h'.scanFrom 0
  cases hscan.symm.trans hscan'
  exact (List.append_inj' (hxs.symm.trans hys) rfl).1

end Token

namespace Expr

open Token

/-- Lexemes and the end of the input, all at the start of the text. -/
def unplaced (xs : List Lexeme) : List Token := (xs ++ [Lexeme.finish]).map fun x => ⟨x, 0⟩

theorem lexemes_unplaced (xs : List Lexeme) : lexemes (unplaced xs) = xs ++ [.finish] := by
  simp [unplaced, lexemes, Function.comp_def]

/-- **A text is read as what its lexemes are read as.** -/
theorem ofText_eq_ok_iff_lexes {s : String} {e : Expr} :
    ofText s = .ok e ↔ ∃ xs, Lexes s.toList xs ∧ ofTokens (unplaced xs) = .ok e := by
  rw [ofText_eq_ok_iff]
  constructor
  · rintro ⟨tokens, hscan, hread⟩
    obtain ⟨xs, hlexes, htokens⟩ := lexes_of_scanFrom hscan
    exact ⟨xs, hlexes, ofTokens_of_lexemes (htokens.trans (lexemes_unplaced xs).symm) hread⟩
  · rintro ⟨xs, hlexes, hread⟩
    obtain ⟨tokens, hscan, htokens⟩ := hlexes.scanFrom 0
    exact ⟨tokens, hscan, ofTokens_of_lexemes ((lexemes_unplaced xs).trans htokens.symm) hread⟩

/-- The lexemes of a text spell what they are read as. -/
theorem spells_of_lexes {cs : List Char} {xs : List Lexeme} {e : Expr} (h : Lexes cs xs)
    (hread : ofTokens (unplaced xs) = .ok e) : Spells xs e := by
  have hspells := spells_of_ofTokens hread
  rwa [spelling_of_lexemes h.finish_not_mem (lexemes_unplaced xs)] at hspells

end Expr

end Sigil

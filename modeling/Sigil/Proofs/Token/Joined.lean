import Sigil.Proofs.Token.Lexes

/-!
# Texts joined by a blank

No lexeme reaches over a blank that stands behind it: a string ends at its quote, and any other
lexeme is read up to the first blank at most. So what is found in a text is found with a blank and
any other text behind it (`lexemeAt_append_blank`), and a text that is scanned keeps its tokens
there. Behind the blank the other text is scanned as it is alone, further on (`scan_append_blank`).
-/

namespace Sigil

open Text (isBlank isSolid)

namespace Lexeme

/-! ## 1. One lexeme -/

/-- **What is found is found with a blank and any text behind it.** -/
theorem lexemeAt_append_blank {c w : Char} (hsolid : isBlank c = false) (hblank : isBlank w = true)
    {cs : List Char} {found : Found} (h : lexemeAt c cs = .ok found) (more : List Char) :
    lexemeAt c (cs ++ w :: more) = .ok found := by
  by_cases hquote : c = '"'
  · subst hquote
    -- the quote that ends the string stands before the blank
    obtain ⟨body, value, rest, rfl, hbody, rfl⟩ := string_of_lexemeAt h
    rw [List.append_assoc]
    exact lexemeAt_string hbody _
  · have hend : Text.EndsAt isSolid (w :: more) := by
      rw [Text.endsAt_cons, isSolid, hblank]
      rfl
    rw [← lexemeAt_takeWhile hquote hsolid, Text.takeWhile_append_of_endsAt cs hend,
      lexemeAt_takeWhile hquote hsolid]
    exact h

end Lexeme

/-! ## 2. Whole texts -/

/-- A fault so many characters further on. -/
def LexError.shift (k : Nat) (e : LexError) : LexError := { e with pos := e.pos + k }

namespace Token

variable {pos : Nat} {cs : List Char}

/-- A text that is passed is passed as well with a blank and any other text behind it. -/
theorem Passed.append_blank {tokens : List Token} (h : Passed [] pos cs tokens) {w : Char}
    (hblank : isBlank w = true) (more : List Char) : Passed (w :: more) pos cs tokens := by
  induction h with
  | nil => exact .nil
  | blank blank _ ih => exact .blank blank ih
  | lexeme solid found _ ih =>
    rw [List.append_nil] at found
    have hfound := Lexeme.lexemeAt_append_blank solid hblank found more
    rw [List.append_assoc] at hfound
    exact .lexeme solid hfound ih

/-- A text has the same tokens further on. -/
theorem scanFrom_shift {tokens : List Token} (h : scanFrom 0 0 cs = .ok tokens) (k : Nat) :
    scanFrom k 0 cs = .ok (tokens.map (shift k)) := by
  obtain ⟨before, rfl, hpassed⟩ := exists_passed h
  have hfurther := (hpassed.shift k).scanFrom_nil
  rw [Nat.zero_add] at hfurther
  rw [hfurther, List.map_append, List.map_singleton, shift, Nat.zero_add, Nat.add_comm k]

/-- A text has the same fault further on. -/
theorem scanFrom_shift_error {e : LexError} (h : scanFrom 0 0 cs = .error e) (k : Nat) :
    scanFrom k 0 cs = .error (e.shift k) := by
  obtain ⟨front, c, rest, fault, before, rfl, hsolid, hfault, rfl, hpassed⟩ := exists_front h
  have hfurther := (hpassed.shift k).scanFrom_fault hsolid hfault
  have hplace : 0 + k + front.length + fault.2 = 0 + front.length + fault.2 + k := by omega
  rwa [hplace, Nat.zero_add] at hfurther

/-- **A blank separates texts.** Where a text is scanned, its tokens before the end of the input are
    also the first tokens of that text with a blank and another text behind it; there follow the
    tokens of the other text, or its fault, as many characters further on as stand before it. -/
theorem scan_append_blank {a : String} {tokens : List Token} (h : scan a = .ok tokens) {w : Char}
    (hblank : isBlank w = true) (b : String) :
    ∃ before, tokens = before ++ [⟨.finish, a.length⟩] ∧
      (∀ after, scan b = .ok after →
        scan (a ++ String.singleton w ++ b) = .ok (before ++ after.map (shift (a.length + 1)))) ∧
      ∀ e, scan b = .error e →
        scan (a ++ String.singleton w ++ b) = .error (e.shift (a.length + 1)) := by
  obtain ⟨before, rfl, hpassed⟩ := exists_passed h
  -- the first text ends in a blank now, so its tokens are whole, and the second starts afresh
  have hjoined : scan (a ++ String.singleton w ++ b) =
      (scanFrom (a.length + 1) 0 b.toList).map (before ++ ·) := by
    have hfront := (hpassed.append_blank hblank b.toList).scanFrom
    rw [Nat.zero_add, String.length_toList, scanFrom, if_pos hblank] at hfront
    unfold scan
    rw [String.toList_append, String.toList_append, String.toList_singleton, List.append_assoc]
    exact hfront
  refine ⟨before, by rw [Nat.zero_add, String.length_toList], fun after hafter => ?_,
    fun e he => ?_⟩
  · rw [hjoined, scanFrom_shift hafter]
    rfl
  · rw [hjoined, scanFrom_shift_error he]
    rfl

/-- An exclamation mark and an equals sign that a wide blank keeps apart, and a fault behind it. -/
theorem scan_append_wide_blank :
    let before : List Token := [⟨.symbol .dollar, 0⟩, ⟨.name "x", 1⟩, ⟨.symbol .bang, 2⟩]
    let after : List Token := [⟨.symbol .equal, 0⟩, ⟨.name "y", 1⟩, ⟨.finish, 2⟩]
    scan "$x!" = .ok (before ++ [⟨.finish, 3⟩]) ∧ isBlank '\u2003' = true ∧ scan "=y" = .ok after ∧
      scan ("$x!" ++ String.singleton '\u2003' ++ "=y") = .ok (before ++ after.map (shift 4)) ∧
      scan ("$x!" ++ String.singleton '\u2003' ++ "=#") = .error ⟨.unexpected '#', 5⟩ := by
  intro before after
  have hfirst : scan "$x!" = .ok (before ++ [⟨.finish, 3⟩]) := rfl
  have hblank : isBlank '\u2003' = true := rfl
  have hsecond : scan "=y" = .ok after := rfl
  have hfault : scan "=#" = .error ⟨.unexpected '#', 1⟩ := rfl
  obtain ⟨found, htokens, hafter, _⟩ := scan_append_blank hfirst hblank "=y"
  obtain ⟨found', _, _, herror⟩ := scan_append_blank hfirst hblank "=#"
  have hfound : before = found := List.append_cancel_right htokens
  subst hfound
  exact ⟨hfirst, hblank, hsecond, hafter after hsecond, herror _ hfault⟩

end Token

end Sigil

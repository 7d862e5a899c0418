import Sigil.Text.Quoted

/-!
# Quoted texts read back

The quoted form of one character can be read off the front of any text that begins with it. So a
quoted text tells its characters one by one, up to the quote that ends it, and a text begins with
one quoted text at most.
-/

namespace Sigil.Text

/-! ## 1. One character -/

/-- The control character, quote or backslash that a letter stands for behind a backslash. -/
def escaped? : Char → Option Char
  | '"' => some '"'
  | '\\' => some '\\'
  | 'n' => some '\n'
  | 'r' => some '\r'
  | 't' => some '\t'
  | 'b' => some '\x08'
  | 'f' => some '\x0C'
  | _ => none

/-- The character whose quoted form stands first, and the rest. -/
def readQuotedChar : List Char → Option (Char × List Char)
  | '\\' :: 'u' :: a :: b :: c :: d :: rest =>
    (ofHexDigits? [a, b, c, d]).map fun n => (Char.ofNat n, rest)
  | '\\' :: letter :: rest => (escaped? letter).map fun c => (c, rest)
  | c :: rest => some (c, rest)
  | [] => none

/-- The codes of the control characters read back. -/
theorem ofHexDigits?_hexDigits_control :
    ∀ n : Fin 0x20, (hexDigits 4 n).length = 4 ∧ ofHexDigits? (hexDigits 4 n) = some n.val := by
  decide

theorem readQuotedChar_code {ds : List Char} {n : Nat} (hlength : ds.length = 4)
    (hread : ofHexDigits? ds = some n) (rest : List Char) :
    readQuotedChar ('\\' :: 'u' :: ds ++ rest) = some (Char.ofNat n, rest) := by
  match ds, hlength with
  | [a, b, c, d], _ =>
    show (ofHexDigits? [a, b, c, d]).map (fun n => (Char.ofNat n, rest)) = some (Char.ofNat n, rest)
    rw [hread, Option.map_some]

theorem readQuotedChar_plain {c : Char} (h : c ≠ '\\') (rest : List Char) :
    readQuotedChar (c :: rest) = some (c, rest) := by
  unfold readQuotedChar
  split
  · next heq => exact absurd (List.cons.inj heq).1 h
  · next heq => exact absurd (List.cons.inj heq).1 h
  · next heq =>
    cases heq
    rfl
  · next heq => cases heq

/-- The quoted form of a character is read as that character, whatever follows. -/
theorem readQuotedChar_quotedChar (c : Char) (rest : List Char) :
    readQuotedChar (quotedChar c ++ rest) = some (c, rest) := by
  unfold quotedChar
  split
  · next h => rcases h with rfl | rfl <;> rfl
  · next hspecial =>
    split
    · next h => subst h; rfl
    · split
      · next h => subst h; rfl
      · split
        · next h => subst h; rfl
        · split
          · next h => subst h; rfl
          · split
            · next h => subst h; rfl
            · split
              · next hcontrol =>
                obtain ⟨hlength, hread⟩ := ofHexDigits?_hexDigits_control ⟨c.toNat, hcontrol⟩
                rw [readQuotedChar_code hlength hread, Char.ofNat_toNat]
              · exact readQuotedChar_plain (fun h => hspecial (.inr h)) rest

/-- No quoted form of a character begins like the end of a quoted text. -/
theorem quotedChar_ne_quote (c : Char) (rest rest' : List Char) :
    quotedChar c ++ rest ≠ '"' :: rest' := by
  intro h
  have hread := readQuotedChar_quotedChar c rest
  rw [h, readQuotedChar_plain (by decide)] at hread
  cases hread
  cases h

/-! ## 2. Whole texts -/

/-- Characters in quoted form, up to the quote that ends them. -/
theorem quotedChars_unique {cs cs' rest rest' : List Char}
    (h : cs.flatMap quotedChar ++ '"' :: rest = cs'.flatMap quotedChar ++ '"' :: rest') :
    cs = cs' ∧ rest = rest' := by
  induction cs generalizing cs' with
  | nil =>
    cases cs' with
    | nil => exact ⟨rfl, (List.cons.inj h).2⟩
    | cons c' cs' =>
      rw [List.flatMap_cons, List.append_assoc] at h
      exact absurd h.symm (quotedChar_ne_quote c' _ _)
  | cons c cs ih =>
    rw [List.flatMap_cons, List.append_assoc] at h
    cases cs' with
    | nil => exact absurd h (quotedChar_ne_quote c _ _)
    | cons c' cs' =>
      rw [List.flatMap_cons, List.append_assoc] at h
      -- both texts are read by the same reader, so their first characters are the same
      have hread := readQuotedChar_quotedChar c (cs.flatMap quotedChar ++ '"' :: rest)
      rw [h, readQuotedChar_quotedChar] at hread
      obtain ⟨rfl, hrests⟩ := Prod.ext_iff.mp (Option.some.inj hread)
      obtain ⟨rfl, rfl⟩ := ih hrests.symm
      exact ⟨rfl, rfl⟩

theorem toList_quoted (s : String) :
    (quoted s).toList = '"' :: (s.toList.flatMap quotedChar ++ ['"']) := by
  unfold quoted
  rw [String.toList_ofList]
  rfl

/-- **A text begins with one quoted text at most.** -/
theorem quoted_unique {s s' : String} {rest rest' : List Char}
    (h : (quoted s).toList ++ rest = (quoted s').toList ++ rest') : s = s' ∧ rest = rest' := by
  rw [toList_quoted, toList_quoted, List.cons_append, List.cons_append, List.append_assoc,
    List.append_assoc] at h
  obtain ⟨hchars, hrest⟩ := quotedChars_unique (List.cons.inj h).2
  exact ⟨String.toList_inj.mp hchars, hrest⟩

end Sigil.Text

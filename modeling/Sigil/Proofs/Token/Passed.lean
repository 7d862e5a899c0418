import Sigil.Proofs.Token.Spelling

/-!
# How far a scan comes

A scan goes through a text from one lexeme to the next. It has passed the front of a text when each
lexeme there is found with all that follows, the rest of the text included (`Passed`). Behind such a
front it goes on as if it had started there (`Passed.scanFrom`), and it passes either the whole text
or a front behind which no lexeme starts (`passed_or_fault`). So the tokens of a text, and the fault
of one that has none, are read off what was passed (`exists_passed`, `exists_front`).
-/

namespace Sigil.Token

open Text (isBlank)
open Lexeme (lexemeAt Fault)

/-! ## 1. The front of a text -/

/-- A scan that starts at `pos` passes the front, with these tokens, where `rest` follows. -/
inductive Passed (rest : List Char) : Nat → List Char → List Token → Prop where
  | nil {pos : Nat} : Passed rest pos [] []
  | blank {pos : Nat} {c : Char} {cs : List Char} {tokens : List Token} (blank : isBlank c = true)
    (next : Passed rest (pos + 1) cs tokens) : Passed rest pos (c :: cs) tokens
  | lexeme {pos : Nat} {c : Char} {word cs : List Char} {x : Lexeme} {tokens : List Token}
    (solid : isBlank c = false) (found : lexemeAt c (word ++ (cs ++ rest)) = .ok ⟨x, word.length⟩)
    (next : Passed rest (pos + 1 + word.length) cs tokens) :
    Passed rest pos (c :: (word ++ cs)) (⟨x, pos⟩ :: tokens)

variable {pos : Nat} {front rest cs : List Char} {tokens : List Token}

/-- **Behind the front a scan goes on as if it started there.** -/
theorem Passed.scanFrom (h : Passed rest pos front tokens) :
    Token.scanFrom pos 0 (front ++ rest) =
      (Token.scanFrom (pos + front.length) 0 rest).map (tokens ++ ·) := by
  induction h with
  | @nil pos =>
    show Token.scanFrom pos 0 rest = (Token.scanFrom pos 0 rest).map ([] ++ ·)
    cases Token.scanFrom pos 0 rest <;> rfl
  | @blank pos c cs tokens blank _ ih =>
    have hplace : pos + 1 + cs.length = pos + (c :: cs).length := by
      rw [List.length_cons]
      omega
    rw [List.cons_append, Token.scanFrom, if_pos blank, ih, hplace]
  | @lexeme pos c word cs x tokens solid found _ ih =>
    have hplace : pos + 1 + word.length + cs.length = pos + (c :: (word ++ cs)).length := by
      rw [List.length_cons, List.length_append]
      omega
    rw [List.cons_append, List.append_assoc]
    simp only [Token.scanFrom, solid, found]
    rw [scanFrom_pending, ih, hplace]
    cases Token.scanFrom (pos + (c :: (word ++ cs)).length) 0 rest <;> rfl

/-- A token so many characters further on. -/
def shift (k : Nat) (t : Token) : Token := { t with pos := t.pos + k }

/-- The same front is passed further on. -/
theorem Passed.shift (h : Passed rest pos front tokens) (k : Nat) :
    Passed rest (pos + k) front (tokens.map (Token.shift k)) := by
  induction h with
  | nil => exact .nil
  | @blank pos c cs tokens blank _ ih =>
    rw [Nat.add_right_comm] at ih
    exact .blank blank ih
  | @lexeme pos c word cs x tokens solid found _ ih =>
    have hplace : pos + 1 + word.length + k = pos + k + 1 + word.length := by omega
    rw [hplace] at ih
    exact .lexeme solid found ih

/-! ## 2. Whole texts -/

/-- **A scan passes the whole text, or a front behind which no lexeme starts.** -/
theorem passed_or_fault (pos : Nat) (cs : List Char) :
    (∃ tokens, Passed [] pos cs tokens) ∨
      ∃ front c rest fault tokens, cs = front ++ c :: rest ∧ isBlank c = false ∧
        lexemeAt c rest = .error fault ∧ Passed (c :: rest) pos front tokens := by
  -- on the length of the text, as a lexeme takes more than one character at a time
  induction hlength : cs.length using Nat.strongRecOn generalizing pos cs with
  | ind n ih =>
    cases cs with
    | nil => exact .inl ⟨[], .nil⟩
    | cons c cs =>
      subst hlength
      cases hblank : isBlank c with
      | true =>
        rcases ih _ (Nat.lt_succ_self _) (pos + 1) cs rfl with
          ⟨tokens, hcs⟩ | ⟨front, d, rest, fault, tokens, rfl, hsolid, hfault, hfront⟩
        · exact .inl ⟨tokens, .blank hblank hcs⟩
        · exact .inr ⟨c :: front, d, rest, fault, tokens, rfl, hsolid, hfault, .blank hblank hfront⟩
      | false =>
        cases hfound : lexemeAt c cs with
        | error fault => exact .inr ⟨[], c, cs, fault, [], rfl, hblank, hfound, .nil⟩
        | ok found =>
          obtain ⟨word, behind, rfl, hextra, -⟩ := Lexeme.longest_of_lexemeAt hfound
          obtain ⟨x, extra⟩ := found
          cases hextra
          have hshorter : behind.length < (c :: (word ++ behind)).length := by
            rw [List.length_cons, List.length_append]
            omega
          rcases ih _ hshorter (pos + 1 + word.length) behind rfl with
            ⟨tokens, hbehind⟩ | ⟨front, d, rest, fault, tokens, rfl, hsolid, hfault, hfront⟩
          · refine .inl ⟨⟨x, pos⟩ :: tokens, .lexeme hblank ?_ hbehind⟩
            rw [List.append_nil]
            exact hfound
          · exact .inr ⟨c :: (word ++ front), d, rest, fault, ⟨x, pos⟩ :: tokens, by simp,
              hsolid, hfault, .lexeme hblank hfound hfront⟩

/-- A text that is passed has those tokens, and the end of the input. -/
theorem Passed.scanFrom_nil (h : Passed [] pos cs tokens) :
    Token.scanFrom pos 0 cs = .ok (tokens ++ [⟨.finish, pos + cs.length⟩]) := by
  have hscan := h.scanFrom
  rwa [List.append_nil] at hscan

/-- Where no lexeme starts behind what is passed, the fault there is the fault of the text. -/
theorem Passed.scanFrom_fault {c : Char} {fault : Fault} (h : Passed (c :: rest) pos front tokens)
    (hsolid : isBlank c = false) (hfault : lexemeAt c rest = .error fault) :
    Token.scanFrom pos 0 (front ++ c :: rest) = .error ⟨fault.1, pos + front.length + fault.2⟩ := by
  rw [h.scanFrom, scanFrom_of_lexemeAt_error hsolid hfault]
  rfl

/-- A scan that succeeds has passed the text. -/
theorem exists_passed {found : List Token} (h : Token.scanFrom pos 0 cs = .ok found) :
    ∃ tokens, found = tokens ++ [⟨.finish, pos + cs.length⟩] ∧ Passed [] pos cs tokens := by
  rcases passed_or_fault pos cs with
    ⟨tokens, hcs⟩ | ⟨front, c, rest, fault, tokens, rfl, hsolid, hfault, hfront⟩
  · rw [hcs.scanFrom_nil] at h
    exact ⟨tokens, (Except.ok.inj h).symm, hcs⟩
  · rw [hfront.scanFrom_fault hsolid hfault] at h
    cases h

/-- A scan that fails has passed a front of the text, and no lexeme starts behind it. -/
theorem exists_front {e : LexError} (h : Token.scanFrom pos 0 cs = .error e) :
    ∃ front c rest fault tokens, cs = front ++ c :: rest ∧ isBlank c = false ∧
      lexemeAt c rest = .error fault ∧ e = ⟨fault.1, pos + front.length + fault.2⟩ ∧
      Passed (c :: rest) pos front tokens := by
  rcases passed_or_fault pos cs with
    ⟨tokens, hcs⟩ | ⟨front, c, rest, fault, tokens, rfl, hsolid, hfault, hfront⟩
  · rw [hcs.scanFrom_nil] at h
    cases h
  · rw [hfront.scanFrom_fault hsolid hfault] at h
    exact ⟨front, c, rest, fault, tokens, rfl, hsolid, hfault, (Except.error.inj h).symm, hfront⟩

end Sigil.Token

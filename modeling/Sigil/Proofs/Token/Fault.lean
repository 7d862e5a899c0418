import Sigil.Proofs.Token.Passed

/-!
# Where a fault of spelling shows

A text that is no sequence of tokens has a front that is one, and the fault shows at the character
behind it: a character that starts no lexeme, a number out of range, or the quote of a string
without an end. Only an unknown escape shows further on, at its backslash, inside of the string that
starts there (`fault_points_into_the_text`).

What stands in front of a fault has to be cut off for this, and a cut must change no lexeme before
it. The scan may look at what follows a lexeme, to see whether it goes on; but where it does not go
on in a text, it does not go on in any text that is the same up to a cut (`lexemeAt_cut`).
-/

namespace Sigil

open Text (isDigit isLetter isNameChar isBlank EndsAt)

namespace Lexeme

/-! ## 1. Texts that are cut short -/

/-- A text that is cut short starts with no other character. -/
theorem head?_cut {rest rest' : List Char} (hcut : rest' <+: rest) {c : Char}
    (h : rest.head? ≠ some c) :
    rest'.head? ≠ some c := by
  obtain ⟨more, rfl⟩ := hcut
  cases rest' with
  | nil => exact nofun
  | cons d cs => exact h

theorem takeWhile_cut {kind : Char → Bool} {word rest rest' : List Char}
    (h : ((word ++ rest).takeWhile kind).length = word.length) (hcut : rest' <+: rest) :
    (word ++ rest').takeWhile kind = (word ++ rest).takeWhile kind := by
  obtain ⟨hword, hrest⟩ :=
    List.append_inj (List.takeWhile_append_dropWhile (p := kind) (l := word ++ rest)) h
  have hkind : ∀ c ∈ word, kind c = true := hword ▸ List.all_eq_true.mp List.all_takeWhile
  have hend : EndsAt kind rest := hrest ▸ Text.endsAt_dropWhile kind _
  rw [hword, Text.takeWhile_segment hkind (hend.of_prefix hcut)]

theorem NumeralEnds.of_prefix {m : Numeral} {rest rest' : List Char} (h : NumeralEnds m rest)
    (hcut : rest' <+: rest) : NumeralEnds m rest' where
  digit := h.digit.of_prefix hcut
  fraction hnil := by
    have hnone : fractionOf rest = [] := h.fraction hnil
    obtain ⟨more, rfl⟩ := hcut
    cases rest' with
    | nil => rfl
    | cons c cs =>
      by_cases hpoint : c = '.'
      · -- a point with no digit behind it is a symbol, in both texts
        subst hpoint
        have hend : EndsAt isDigit (cs ++ more) := Text.takeWhile_eq_nil_iff.mp hnone
        exact Text.takeWhile_eq_nil_iff.mpr (hend.of_prefix (List.prefix_append cs more))
      · exact fractionOf_eq_nil fun heq => hpoint (Option.some.inj heq)

theorem numberAt_cut {first : Char} {negative : Bool} {word rest rest' : List Char} {found : Found}
    (h : numberAt first negative (word ++ rest) = .ok found)
    (hlength : word.length = if negative then found.extra else found.extra + 1)
    (hcut : rest' <+: rest) :
    numberAt first negative (word ++ rest') = .ok found := by
  have hfinite := isFinite_of_numberAt h
  obtain ⟨m, behind, hsplit, hends, rfl, rfl, -⟩ := numeral_of_numberAt h
  obtain ⟨d, ds, hds, -⟩ := exists_cons_magnitude m
  have hword : word.length = m.magnitude.length := by
    rw [hlength, hds]
    cases m.negative <;> rfl
  obtain ⟨rfl, rfl⟩ := List.append_inj hsplit hword
  rw [numberAt_magnitude m first (hends.of_prefix hcut)]
  exact if_pos hfinite

/-- A symbol of two characters is found whatever follows them. -/
theorem symbol_cut {c d : Char} {s : Symbol}
    (hread : ∀ cs, lexemeAt c (d :: cs) = .ok ⟨.symbol s, 1⟩)
    {word rest rest' : List Char} {x : Lexeme} (hhead : (word ++ rest).head? = some d)
    (h : lexemeAt c (word ++ rest) = .ok ⟨x, word.length⟩) :
    lexemeAt c (word ++ rest') = .ok ⟨x, word.length⟩ := by
  obtain ⟨cs, hcs⟩ := List.head?_eq_some_iff.mp hhead
  rw [hcs, hread] at h
  obtain ⟨rfl, hlength⟩ := Found.mk.inj (Except.ok.inj h)
  obtain ⟨c', rfl⟩ := List.length_eq_one_iff.mp hlength.symm
  rw [(List.cons.inj hcs).1]
  exact hread _

/-- **A lexeme is found again where the text behind it is cut short.** -/
theorem lexemeAt_cut {c : Char} {word rest rest' : List Char} {x : Lexeme}
    (h : lexemeAt c (word ++ rest) = .ok ⟨x, word.length⟩) (hcut : rest' <+: rest) :
    lexemeAt c (word ++ rest') = .ok ⟨x, word.length⟩ := by
  have hprefix : word ++ rest' <+: word ++ rest := (List.prefix_append_right_inj word).mpr hcut
  by_cases hbang : c = '!'
  · subst hbang
    by_cases hequal : (word ++ rest).head? = some '='
    · exact symbol_cut (fun _ => rfl) hequal h
    · rw [lexemeAt_bang hequal] at h
      rw [lexemeAt_bang (head?_cut hprefix hequal)]
      exact h
  · by_cases hminus : c = '-'
    · subst hminus
      by_cases harrow : (word ++ rest).head? = some '>'
      · exact symbol_cut (fun _ => rfl) harrow h
      · rw [lexemeAt_minus harrow] at h
        rw [lexemeAt_minus (head?_cut hprefix harrow)]
        exact numberAt_cut h rfl hcut
    · by_cases hquote : c = '"'
      · subst hquote
        obtain ⟨body, value, rfl, hbody, rfl⟩ := string_word_of_lexemeAt h
        rw [List.append_assoc, List.length_append]
        exact lexemeAt_string hbody rest'
      · rw [lexemeAt_plain hbang hminus hquote] at h ⊢
        split at h
        · next hdigit =>
          rw [if_pos hdigit]
          have hnumber : numberAt c false (c :: word ++ rest) = .ok ⟨x, word.length⟩ := h
          have hfound := numberAt_cut hnumber rfl hcut
          exact hfound
        · next hdigit =>
          rw [if_neg hdigit]
          split at h
          -- a word ends at the same place, since what follows it now followed it before too
          · next hletter =>
            have hlength := congrArg Found.extra (Except.ok.inj h)
            rw [if_pos hletter, takeWhile_cut hlength hcut]
            exact h
          · next hletter =>
            rw [if_neg hletter]
            exact h

/-! ## 2. How a lexeme fails to start -/

/-- The faults of a text that starts with the character and goes on in `rest`, each with the
    place where it shows. -/
inductive FaultAt (c : Char) (rest : List Char) : Fault → Prop where
  | unexpected : FaultAt c rest (.unexpected c, 0)
  | outOfRange : FaultAt c rest (.outOfRange c, 0)
  | openString (quote : c = '"') : FaultAt c rest (.openString, 0)
  | unknownEscape (quote : c = '"') (body value : List Char) (escape : Char) (more : List Char)
    (rest_eq : rest = body ++ '\\' :: escape :: more) (unescapes : Unescapes body value) :
    FaultAt c rest (.unknownEscape escape, body.length + 1)

theorem faultAt_of_numberAt {first : Char} {negative : Bool} {digits rest : List Char}
    {fault : Fault}
    (h : numberAt first negative digits = .error fault) : FaultAt first rest fault := by
  unfold numberAt at h
  dsimp only at h
  split at h
  · cases h
    exact .unexpected
  · split at h
    · cases h
    · cases h
      exact .outOfRange

/-- A string fails for want of an end, or at a first escape that stands for nothing. -/
theorem stringFrom_error_cases {taken : Nat} {cs : List Char} {fault : Fault}
    (h : stringFrom taken cs = .error fault) :
    fault = (.openString, 0) ∨
      ∃ body value escape more, cs = body ++ '\\' :: escape :: more ∧ Unescapes body value ∧
        fault = (.unknownEscape escape, taken + body.length + 1) := by
  -- on the scan of the string: the fault is of this escape, of a later one, or the missing quote
  fun_induction stringFrom taken cs generalizing fault with
  | case1 => cases h
  | case2 taken c rest =>
    cases h
    exact .inr ⟨[], [], c, rest, rfl, .nil, rfl⟩
  | case3 => cases h
  | case4 taken c rest d hescape fault' hread ih =>
    cases h
    rcases ih hread with rfl | ⟨body, value, escape, more, rfl, hbody, rfl⟩
    · exact .inl rfl
    · refine .inr ⟨'\\' :: c :: body, d :: value, escape, more, rfl, .escape hescape hbody, ?_⟩
      rw [List.length_cons, List.length_cons, Nat.add_right_comm taken 2,
        Nat.add_assoc taken body.length 2]
  | case5 =>
    cases h
    exact .inl rfl
  | case6 => cases h
  | case7 taken c rest hquote _ hbackslash fault' hread ih =>
    cases h
    rcases ih hread with rfl | ⟨body, value, escape, more, rfl, hbody, rfl⟩
    · exact .inl rfl
    · refine .inr ⟨c :: body, c :: value, escape, more, rfl, .plain hquote hbackslash hbody, ?_⟩
      rw [List.length_cons, Nat.add_right_comm taken 1, Nat.add_assoc taken body.length 1]
  | case8 =>
    cases h
    exact .inl rfl

/-- A string that is cut short has no end. -/
theorem stringFrom_of_open {body value : List Char} (h : Unescapes body value) (taken : Nat) :
    stringFrom taken body = .error (.openString, 0) := by
  have hread := stringFrom_append h taken []
  rwa [List.append_nil] at hread

/-- Where no lexeme starts, one of the faults is the reason. -/
theorem faultAt_of_lexemeAt {c : Char} {rest : List Char} {fault : Fault}
    (h : lexemeAt c rest = .error fault) : FaultAt c rest fault := by
  unfold lexemeAt at h
  split at h
  · cases h
  · cases h
  · exact faultAt_of_numberAt h
  -- only a string can have its fault elsewhere than at its first character
  · split at h
    · cases h
    · next hread =>
      cases h
      rcases stringFrom_error_cases hread with rfl | ⟨body, value, escape, more, rfl, hbody, rfl⟩
      · exact .openString rfl
      · rw [Nat.zero_add]
        exact .unknownEscape rfl body value escape more rfl hbody
  · split at h
    · exact faultAt_of_numberAt h
    · split at h
      · cases h
      · split at h
        · cases h
        · cases h
          exact .unexpected

end Lexeme

namespace Token

open Lexeme (Unescapes)

/-! ## 3. The place of a fault -/

/-- What is passed is passed as well where the text behind it is cut short. -/
theorem Passed.cut {rest rest' : List Char} {pos : Nat} {front : List Char} {tokens : List Token}
    (h : Passed rest pos front tokens) (hcut : rest' <+: rest) : Passed rest' pos front tokens := by
  induction h with
  | nil => exact .nil
  | blank blank _ ih => exact .blank blank ih
  | lexeme solid found _ ih =>
    exact .lexeme solid (Lexeme.lexemeAt_cut found ((List.prefix_append_right_inj _).mpr hcut)) ih

/-- The text up to a place. -/
def upTo (s : String) (place : Nat) : String := String.ofList (s.toList.take place)

/-- Behind what is passed stands the next character, and the text before it is scanned. -/
theorem scan_upTo_of_passed {s : String} {front rest : List Char} {c : Char} {tokens : List Token}
    (hs : s.toList = front ++ c :: rest) (h : Passed (c :: rest) 0 front tokens) :
    s.toList[front.length]? = some c ∧ ∃ tokens, scan (upTo s front.length) = .ok tokens := by
  refine ⟨?_, ?_⟩
  · rw [hs, List.getElem?_append_right (Nat.le_refl _), Nat.sub_self]
    rfl
  · unfold upTo scan
    rw [String.toList_ofList, hs, List.take_left]
    exact ⟨_, (h.cut List.nil_prefix).scanFrom_nil⟩

/-- At the place the string that starts at `start` is not finished: the text before it is scanned,
    its quote is followed by characters and known escapes only, and a text that ends at the place is
    refused for that string. -/
structure StringOpen (s : String) (start place : Nat) : Prop where
  lt : start < place
  quote : s.toList[start]? = some '"'
  before : ∃ tokens, scan (upTo s start) = .ok tokens
  unescapes : ∃ value, Unescapes ((s.toList.take place).drop (start + 1)) value
  refused : scan (upTo s place) = .error ⟨.openString, start⟩

theorem stringOpen_of_passed {s : String} {front body value more : List Char} {tokens : List Token}
    (hs : s.toList = front ++ '"' :: (body ++ more))
    (h : Passed ('"' :: (body ++ more)) 0 front tokens)
    (hbody : Unescapes body value) :
    StringOpen s front.length (front.length + (body.length + 1)) := by
  have hplace : s.toList.take (front.length + (body.length + 1)) = front ++ '"' :: body := by
    rw [hs, List.take_length_add_append, List.take_succ_cons, List.take_left]
  -- cut at the backslash, the tokens before the string stay and the string is left open
  have hpassed : Passed ('"' :: body) 0 front tokens :=
    h.cut (List.cons_prefix_cons.mpr ⟨rfl, List.prefix_append _ _⟩)
  have hopen : Lexeme.lexemeAt '"' body = .error (.openString, 0) := by
    simp only [Lexeme.lexemeAt, Lexeme.stringFrom_of_open hbody]
  obtain ⟨hquote, hbefore⟩ := scan_upTo_of_passed hs h
  refine ⟨by omega, hquote, hbefore, ?_, ?_⟩
  · rw [hplace, List.drop_length_add_append]
    exact ⟨value, hbody⟩
  · unfold upTo scan
    rw [String.toList_ofList, hplace, hpassed.scanFrom_fault rfl hopen, Nat.zero_add]
    rfl

/-- **A fault of spelling shows where it is.** Its place lies in the text. An unknown escape shows
    at its backslash, with the character behind that, inside of a string that is not finished there;
    any other fault at its own character, and the text before that is scanned. -/
theorem fault_points_into_the_text {s : String} {e : LexError} (h : scan s = .error e) :
    e.pos < s.length ∧
      (∀ escape, e.fault = .unknownEscape escape →
        s.toList[e.pos]? = some '\\' ∧ s.toList[e.pos + 1]? = some e.fault.char ∧
          ∃ start, StringOpen s start e.pos) ∧
      ((∀ escape, e.fault ≠ .unknownEscape escape) →
        s.toList[e.pos]? = some e.fault.char ∧ ∃ tokens, scan (upTo s e.pos) = .ok tokens) := by
  obtain ⟨front, c, rest, fault, tokens, hs, hsolid, hfault, rfl, hpassed⟩ := exists_front h
  rw [Nat.zero_add]
  have hlength : front.length < s.length := by
    rw [← String.length_toList, hs, List.length_append, List.length_cons]
    omega
  obtain ⟨hchar, hbefore⟩ := scan_upTo_of_passed hs hpassed
  -- a fault inside a string lies behind its quote, every other at the character itself
  cases Lexeme.faultAt_of_lexemeAt hfault with
  | unexpected => exact ⟨hlength, nofun, fun _ => ⟨hchar, hbefore⟩⟩
  | outOfRange => exact ⟨hlength, nofun, fun _ => ⟨hchar, hbefore⟩⟩
  | openString quote =>
    subst quote
    exact ⟨hlength, nofun, fun _ => ⟨hchar, hbefore⟩⟩
  | unknownEscape quote body value escape more rest_eq unescapes =>
    subst quote rest_eq
    have hs' : s.toList = (front ++ '"' :: body) ++ '\\' :: escape :: more := by
      rw [hs, List.append_assoc, List.cons_append]
    have hplace : front.length + (body.length + 1) = (front ++ '"' :: body).length := by
      rw [List.length_append, List.length_cons]
    have hbackslash : s.toList[front.length + (body.length + 1)]? = some '\\' := by
      rw [hplace, hs', List.getElem?_append_right (Nat.le_refl _), Nat.sub_self]
      rfl
    have hescape : s.toList[front.length + (body.length + 1) + 1]? = some escape := by
      rw [hplace, hs', List.getElem?_append_right (Nat.le_add_right _ 1), Nat.add_sub_cancel_left]
      rfl
    have hlt : front.length + (body.length + 1) < s.length := by
      rw [← String.length_toList]
      exact (List.getElem?_eq_some_iff.mp hbackslash).1
    exact ⟨hlt, fun _ _ =>
      ⟨hbackslash, hescape, front.length, stringOpen_of_passed hs hpassed unescapes⟩,
      fun hother => absurd rfl (hother escape)⟩

/-- An escape of a `q` is no escape: the fault shows inside of the string, at the backslash. -/
theorem unknown_escape_points_at_its_backslash :
    let s := "!= \"a\\q\""
    scan s = .error ⟨.unknownEscape 'q', 5⟩ ∧ 5 < s.length ∧ s.toList[5]? = some '\\' ∧
      s.toList[6]? = some 'q' ∧ ∃ start, StringOpen s start 5 := by
  intro s
  have h : scan "!= \"a\\q\"" = .error ⟨.unknownEscape 'q', 5⟩ := rfl
  obtain ⟨hlt, hescape, _⟩ := fault_points_into_the_text h
  obtain ⟨hbackslash, hchar, hopen⟩ := hescape 'q' rfl
  exact ⟨h, hlt, hbackslash, hchar, hopen⟩

end Token

end Sigil

import Sigil.Proofs.Number.Text
import Sigil.Token.Scan

/-!
# Lexemes and their texts

What the scan returns of a text: every number is finite, and every name is a name other than the
three words that are literals (`isSpellable_of_scan`). Conversely each such lexeme has a text of its
own (`Lexeme.chars`), and texts of lexemes with a blank behind each are scanned as these lexemes
(`exists_scan_written`).

A number is written by the text that the notation has for it, the zeros by their sign and a digit,
so that even these two read back apart. In a string only the quote and the backslash are escaped;
every other character, a line break too, stands for itself.
-/

namespace Sigil

open Text (isDigit isLetter isNameChar isBlank EndsAt)

namespace Lexeme

/-! ## 1. What a text can spell -/

/-- A name that is none of the words for literals. -/
def isFreeName (word : String) : Bool :=
  Text.isName word.toList && !(["null", "true", "false"].contains word)

/-- What a scan can return: numbers are finite and names are free. -/
def isSpellable : Lexeme → Bool
  | .number value => value.isFinite
  | .name word => isFreeName word
  | _ => true

/-- The texts of the words for literals. -/
theorem ofWord_eq (word : List Char) :
    ofWord word = if word = "null".toList then .null else if word = "true".toList then .bool true
      else if word = "false".toList then .bool false else .name (String.ofList word) := rfl

theorem isSpellable_ofWord {word : List Char} (h : Text.isName word = true) :
    (ofWord word).isSpellable = true := by
  have hfree : ∀ literal : String, word ≠ literal.toList → String.ofList word ≠ literal := by
    intro literal hne heq
    exact hne (heq ▸ String.toList_ofList.symm)
  rw [ofWord_eq]
  split
  · rfl
  · next hnull =>
    split
    · rfl
    · next htrue =>
      split
      · rfl
      · next hfalse =>
        simp [isSpellable, isFreeName, h, hfree _ hnull, hfree _ htrue, hfree _ hfalse]

theorem ofWord_of_isFreeName {word : String} (h : isFreeName word = true) :
    ofWord word.toList = .name word := by
  have hne : ∀ literal ∈ ["null", "true", "false"], word.toList ≠ literal.toList := by
    intro literal hmem heq
    have hcontains : ["null", "true", "false"].contains word = true :=
      List.contains_iff_mem.mpr (String.toList_inj.mp heq ▸ hmem)
    unfold isFreeName at h
    rw [hcontains, Bool.not_true, Bool.and_false] at h
    cases h
  rw [ofWord_eq, if_neg (hne "null" (by decide)), if_neg (hne "true" (by decide)),
    if_neg (hne "false" (by decide)), String.ofList_toList]

theorem isFinite_of_numberAt {first : Char} {negative : Bool} {digits : List Char} {found : Found}
    (h : numberAt first negative digits = .ok found) : found.lexeme.isSpellable = true := by
  unfold numberAt at h
  dsimp only at h
  split at h
  · cases h
  · split at h
    · next hfinite =>
      cases h
      exact hfinite
    · cases h

/-- A lexeme that does not start like one of the special spellings. -/
theorem lexemeAt_plain {c : Char} (hbang : c ≠ '!') (hminus : c ≠ '-') (hquote : c ≠ '"')
    (cs : List Char) :
    lexemeAt c cs =
      if isDigit c then numberAt c false (c :: cs)
      else if isLetter c then
        .ok ⟨ofWord (c :: cs.takeWhile isNameChar), (cs.takeWhile isNameChar).length⟩
      else match symbolOf? c with
        | some s => .ok ⟨.symbol s, 0⟩
        | none => .error (.unexpected c, 0) := by
  unfold lexemeAt
  split
  · exact absurd rfl hbang
  · exact absurd rfl hminus
  · exact absurd rfl hminus
  · exact absurd rfl hquote
  · rfl

/-- An exclamation mark that no equals sign follows. -/
theorem lexemeAt_bang {cs : List Char} (h : cs.head? ≠ some '=') :
    lexemeAt '!' cs = .ok ⟨.symbol .bang, 0⟩ := by
  cases cs with
  | nil => rfl
  | cons d ds =>
    have hd : d ≠ '=' := fun heq => h (congrArg some heq)
    simp [lexemeAt, hd]
    rfl

/-- A minus sign that no arrow head follows. -/
theorem lexemeAt_minus {cs : List Char} (h : cs.head? ≠ some '>') :
    lexemeAt '-' cs = numberAt '-' true cs := by
  cases cs with
  | nil => rfl
  | cons d ds =>
    have hd : d ≠ '>' := fun heq => h (congrArg some heq)
    simp [lexemeAt, hd]

/-- Every lexeme that starts somewhere can be spelt. -/
theorem isSpellable_of_lexemeAt {c : Char} {cs : List Char} {found : Found}
    (h : lexemeAt c cs = .ok found) : found.lexeme.isSpellable = true := by
  unfold lexemeAt at h
  split at h
  · cases h; rfl
  · cases h; rfl
  · exact isFinite_of_numberAt h
  · split at h
    · cases h; rfl
    · cases h
  · split at h
    · exact isFinite_of_numberAt h
    · split at h
      · next hletter =>
        cases h
        refine isSpellable_ofWord (Bool.and_eq_true_iff.mpr ⟨hletter, ?_⟩)
        exact List.all_takeWhile
      · split at h
        · cases h; rfl
        · cases h

end Lexeme

namespace Token

open Lexeme

theorem isSpellable_of_scanFrom {pos pending : Nat} {cs : List Char} {tokens : List Token}
    (h : scanFrom pos pending cs = .ok tokens) : ∀ t ∈ tokens, t.lexeme.isSpellable = true := by
  induction cs generalizing pos pending tokens with
  | nil =>
    cases h
    exact List.forall_mem_singleton.mpr rfl
  | cons c cs ih =>
    cases pending with
    | succ more => exact ih h
    | zero =>
      unfold scanFrom at h
      dsimp only at h
      split at h
      · exact ih h
      · split at h
        · cases h
        · next found hfound =>
          split at h
          · next tokens' htokens =>
            cases h
            exact List.forall_mem_cons.mpr ⟨isSpellable_of_lexemeAt hfound, ih htokens⟩
          · cases h

/-- **All that a scan returns can be spelt.** -/
theorem isSpellable_of_scan {s : String} {tokens : List Token} (h : scan s = .ok tokens) :
    ∀ t ∈ tokens, t.lexeme.isSpellable = true := isSpellable_of_scanFrom h

end Token

/-! ## 2. Texts of lexemes -/

/-- A finite number as a numeral; the two zeros differ in their sign. -/
def Binary64.chars (x : Binary64) : List Char :=
  if x.isZero then (if x.negative then ['-', '0'] else ['0']) else x.text.toList

namespace Lexeme

/-- A character of a string. -/
def stringChar (c : Char) : List Char := if c = '"' ∨ c = '\\' then ['\\', c] else [c]

/-- The text of a lexeme. -/
def chars : Lexeme → List Char
  | .number value => value.chars
  | .string value => '"' :: (value.toList.flatMap stringChar ++ ['"'])
  | .name word => word.toList
  | .null => "null".toList
  | .bool true => "true".toList
  | .bool false => "false".toList
  | .symbol s => s.spelling.toList
  | .finish => []

/-- The texts of lexemes, a blank behind each. -/
def written (w : List Lexeme) : List Char := w.flatMap fun x => x.chars ++ [' ']

theorem written_cons (x : Lexeme) (w : List Lexeme) :
    written (x :: w) = x.chars ++ ' ' :: written w := by
  unfold written
  rw [List.flatMap_cons, List.append_assoc]
  rfl

/-! ## 3. Numbers -/

/-- The text of a finite number is a numeral that stands for exactly this number. -/
theorem exists_numeral_chars {x : Binary64} (hx : x.isFinite = true) :
    ∃ m : Numeral, x.chars = m.chars ∧ m.value = x := by
  -- zero is written as a digit with a sign, and any other number by its shortest decimal
  cases hzero : x.isZero with
  | true =>
    have hdigit : ∀ c ∈ ['0'], isDigit c = true := List.forall_mem_singleton.mpr rfl
    refine ⟨⟨x.negative, ['0'], [], List.cons_ne_nil _ _, hdigit,
      fun _ hc => absurd hc List.not_mem_nil⟩, ?_, ?_⟩
    · unfold Binary64.chars
      rw [hzero, if_pos rfl]
      rfl
    · have hrank := Decimal.rank_toBinary64_of_coefficient_eq_zero
        (d := Decimal.ofDigits ['0'] []) rfl false
      have hx : x.rank.val = 0 := beq_iff_eq.mp hzero
      unfold Numeral.value
      rw [Decimal.toBinary64_eq]
      obtain ⟨negative, rank⟩ := x
      exact congrArg (Binary64.mk negative) (Fin.ext (hrank.trans hx.symm))
  | false =>
    obtain ⟨m, hm, hsame⟩ := Binary64.exists_numeral_text hx
    refine ⟨m, ?_, ?_⟩
    · unfold Binary64.chars
      rw [hzero]
      exact hm
    · obtain ⟨_, _, heq | ⟨_, hx⟩⟩ := Binary64.same_iff.mp hsame
      · exact heq
      · rw [hzero] at hx
        cases hx

/-- A name character starts none of the special spellings, and it is no blank. -/
theorem special_of_isNameChar {c : Char} (h : isNameChar c = true) :
    c ≠ '!' ∧ c ≠ '-' ∧ c ≠ '"' ∧ isBlank c = false := by
  refine ⟨?_, ?_, ?_, ?_⟩
  · rintro rfl
    cases h
  · rintro rfl
    cases h
  · rintro rfl
    cases h
  -- letters, digits and the underscore lie between the digit zero and the letter z
  · have hrange : 0x30 ≤ c.toNat ∧ c.toNat ≤ 0x7A := by
      simp only [isNameChar, isLetter, isDigit, Bool.or_eq_true, Bool.and_eq_true,
        decide_eq_true_eq, beq_iff_eq, Char.le_def, UInt32.le_iff_toNat_le] at h
      rcases h with ((⟨hlow, hhigh⟩ | ⟨hlow, hhigh⟩) | ⟨hlow, hhigh⟩) | rfl
      · exact ⟨Nat.le_trans (by decide) hlow, hhigh⟩
      · exact ⟨Nat.le_trans (by decide) hlow, Nat.le_trans hhigh (by decide)⟩
      · exact ⟨hlow, Nat.le_trans hhigh (by decide)⟩
      · exact ⟨by decide, by decide⟩
    refine Bool.eq_false_iff.mpr fun hblank => ?_
    simp only [isBlank, Bool.or_eq_true, Bool.and_eq_true, decide_eq_true_eq, beq_iff_eq] at hblank
    omega

theorem isNameChar_of_isBlank {c : Char} (h : isBlank c = true) : isNameChar c = false := by
  refine Bool.eq_false_iff.mpr fun hname => ?_
  rw [(special_of_isNameChar hname).2.2.2] at h
  cases h

theorem isNameChar_of_isDigit {c : Char} (h : isDigit c = true) : isNameChar c = true := by
  unfold isNameChar
  rw [h, Bool.or_true, Bool.true_or]

/-- The magnitude of a numeral starts with a digit. -/
theorem exists_cons_magnitude (m : Numeral) : ∃ d ds, m.magnitude = d :: ds ∧ isDigit d = true := by
  obtain ⟨d, ds, hds⟩ := List.exists_cons_of_ne_nil m.whole_ne_nil
  refine ⟨d, ds ++ Numeral.pointed m.fraction, ?_, m.isDigit_whole d (hds ▸ List.mem_cons_self)⟩
  unfold Numeral.magnitude
  rw [hds, List.cons_append]

/-- A numeral starts with something that is no blank. -/
theorem exists_cons_chars (m : Numeral) : ∃ c cs, m.chars = c :: cs ∧ isBlank c = false := by
  obtain ⟨d, ds, hds, hdigit⟩ := exists_cons_magnitude m
  unfold Numeral.chars
  cases m.negative with
  | true => exact ⟨'-', m.magnitude, rfl, rfl⟩
  | false =>
    exact ⟨d, ds, hds, (special_of_isNameChar (isNameChar_of_isDigit hdigit)).2.2.2⟩

/-- A blank ends a segment of digits. -/
theorem endsAt_blank {kind : Char → Bool} (h : kind ' ' = false) (rest : List Char) :
    EndsAt kind (' ' :: rest) := Text.endsAt_cons.mpr h

/-- The numeral goes on no longer: no digit follows, and no fraction if it has none. -/
structure NumeralEnds (m : Numeral) (rest : List Char) : Prop where
  digit : EndsAt isDigit rest
  fraction : m.fraction = [] → fractionOf rest = []

theorem fractionOf_eq_nil {rest : List Char} (h : rest.head? ≠ some '.') :
    fractionOf rest = [] := by
  unfold fractionOf
  split
  · exact absurd rfl h
  · rfl

theorem NumeralEnds.fractionOf_pointed {m : Numeral} {rest : List Char} (h : NumeralEnds m rest) :
    fractionOf (Numeral.pointed m.fraction ++ rest) = m.fraction := by
  cases hfraction : m.fraction with
  | nil => exact h.fraction hfraction
  | cons c cs => exact Text.takeWhile_segment (hfraction ▸ m.isDigit_fraction) h.digit

/-- A magnitude is read as the numeral it is, where that ends; it has to be in range. -/
theorem numberAt_magnitude (m : Numeral) (first : Char) {rest : List Char}
    (hends : NumeralEnds m rest) :
    numberAt first m.negative (m.magnitude ++ rest) =
      if m.value.isFinite then
        .ok ⟨.number m.value, if m.negative then m.magnitude.length else m.magnitude.length - 1⟩
      else .error (.outOfRange first, 0) := by
  have hwhole : (m.magnitude ++ rest).takeWhile isDigit = m.whole := by
    unfold Numeral.magnitude
    rw [List.append_assoc]
    exact Text.takeWhile_segment m.isDigit_whole (Numeral.endsAt_pointed m.fraction _ hends.digit)
  have hfraction : fractionOf ((m.magnitude ++ rest).drop m.whole.length) = m.fraction := by
    unfold Numeral.magnitude
    rw [List.append_assoc, List.drop_left]
    exact hends.fractionOf_pointed
  have hlength : m.whole.length + (if m.fraction.isEmpty = true then 0 else m.fraction.length + 1) =
      m.magnitude.length := by
    unfold Numeral.magnitude Numeral.pointed
    rw [List.length_append]
    cases m.fraction <;> rfl
  have hne : m.whole.isEmpty = false := List.isEmpty_eq_false_iff.mpr m.whole_ne_nil
  unfold numberAt
  dsimp only
  rw [hwhole, hfraction, hne, if_neg Bool.false_ne_true, hlength]
  rfl

/-- A numeral is read as the number that it stands for, if that is in range. -/
theorem lexemeAt_numeral {m : Numeral} {c : Char} {cs : List Char} (hchars : m.chars = c :: cs)
    {rest : List Char} (hrest : EndsAt isDigit rest) (hpoint : rest.head? ≠ some '.') :
    lexemeAt c (cs ++ rest) =
      if m.value.isFinite then .ok ⟨.number m.value, cs.length⟩ else .error (.outOfRange c, 0) := by
  have hread := fun first => numberAt_magnitude m first ⟨hrest, fun _ => fractionOf_eq_nil hpoint⟩
  obtain ⟨d, ds, hds, hdigit⟩ := exists_cons_magnitude m
  unfold Numeral.chars at hchars
  cases hn : m.negative with
  | true =>
    rw [hn, if_pos rfl] at hchars
    obtain ⟨rfl, rfl⟩ := List.cons.inj hchars
    -- a digit behind the minus sign, so it is no arrow
    have hhead : (m.magnitude ++ rest).head? ≠ some '>' := by
      rw [hds]
      intro h
      cases Option.some.inj h
      cases hdigit
    rw [lexemeAt_minus hhead, ← hn, hread, hn]
    rfl
  | false =>
    rw [hn, if_neg Bool.false_ne_true, hds] at hchars
    obtain ⟨rfl, rfl⟩ := List.cons.inj hchars
    obtain ⟨hbang, hminus, hquote, -⟩ := special_of_isNameChar (isNameChar_of_isDigit hdigit)
    rw [lexemeAt_plain hbang hminus hquote, if_pos hdigit, ← List.cons_append, ← hds,
      ← hn, hread, hn, hds]
    rfl

/-! ## 4. Strings -/

/-- What the characters between the quotes of a string stand for. -/
inductive Unescapes : List Char → List Char → Prop where
  | nil : Unescapes [] []
  | plain {c : Char} {body value : List Char} (noQuote : c ≠ '"') (noBackslash : c ≠ '\\')
    (rest : Unescapes body value) : Unescapes (c :: body) (c :: value)
  | escape {c d : Char} {body value : List Char} (stands : unescape? c = some d)
    (rest : Unescapes body value) : Unescapes ('\\' :: c :: body) (d :: value)

theorem Unescapes.append {body body' value value' : List Char} (h : Unescapes body value)
    (h' : Unescapes body' value') : Unescapes (body ++ body') (value ++ value') := by
  induction h with
  | nil => exact h'
  | plain noQuote noBackslash _ ih => exact .plain noQuote noBackslash ih
  | escape stands _ ih => exact .escape stands ih

/-- A string may be written character by character. -/
theorem unescapes_flatMap {f : Char → List Char} {cs : List Char}
    (h : ∀ c ∈ cs, Unescapes (f c) [c]) :
    Unescapes (cs.flatMap f) cs := by
  induction cs with
  | nil => exact .nil
  | cons c cs ih =>
    obtain ⟨hc, hcs⟩ := List.forall_mem_cons.mp h
    rw [List.flatMap_cons]
    exact hc.append (ih hcs)

theorem unescapes_stringChar (c : Char) : Unescapes (stringChar c) [c] := by
  unfold stringChar
  split
  · next hspecial =>
    have hescape : unescape? c = some c := by rcases hspecial with rfl | rfl <;> rfl
    exact .escape hescape .nil
  · next hplain =>
    obtain ⟨hquote, hbackslash⟩ := not_or.mp hplain
    exact .plain hquote hbackslash .nil

/-- The characters of a string are read one by one, whatever follows them. -/
theorem stringFrom_append {body value : List Char} (h : Unescapes body value) (taken : Nat)
    (rest : List Char) :
    stringFrom taken (body ++ rest) =
      (stringFrom (taken + body.length) rest).map fun read => (value ++ read.1, read.2) := by
  induction h generalizing taken with
  | nil =>
    show stringFrom taken rest = (stringFrom taken rest).map id
    cases stringFrom taken rest <;> rfl
  | @plain c body value noQuote noBackslash _ ih =>
    have hplace : taken + 1 + body.length = taken + (c :: body).length := by
      rw [List.length_cons]
      omega
    rw [List.cons_append, stringFrom.eq_def]
    split
    · next heq => exact absurd (List.cons.inj heq).1 noQuote
    · next heq => exact absurd (List.cons.inj heq).1 noBackslash
    · next heq =>
      obtain ⟨rfl, rfl⟩ := List.cons.inj heq
      rw [if_neg noBackslash, ih, hplace]
      cases stringFrom (taken + (c :: body).length) rest <;> rfl
    · next heq => cases heq
  | @escape c d body value stands _ ih =>
    have hplace : taken + 2 + body.length = taken + ('\\' :: c :: body).length := by
      rw [List.length_cons, List.length_cons]
      omega
    show stringFrom taken ('\\' :: c :: (body ++ rest)) = _
    simp only [stringFrom, stands, ih, hplace]
    cases stringFrom (taken + ('\\' :: c :: body).length) rest <;> rfl

/-- A text between quotes is read as what it stands for. -/
theorem stringFrom_of_unescapes {body value : List Char} (h : Unescapes body value) (taken : Nat)
    (rest : List Char) :
    stringFrom taken (body ++ '"' :: rest) = .ok (value, taken + body.length + 1) := by
  rw [stringFrom_append h, stringFrom, Except.map, List.append_nil]

/-- A text between quotes is found as the string that it stands for. -/
theorem lexemeAt_string {body value : List Char} (h : Unescapes body value) (rest : List Char) :
    lexemeAt '"' (body ++ '"' :: rest) = .ok ⟨.string (String.ofList value), body.length + 1⟩ := by
  simp only [lexemeAt, stringFrom_of_unescapes h, Nat.zero_add]

/-! ## 5. Reading back -/

theorem isNameChar_of_isLetter {c : Char} (h : isLetter c = true) : isNameChar c = true := by
  unfold isNameChar
  rw [h, Bool.true_or, Bool.true_or]

theorem isDigit_of_isLetter {c : Char} (h : isLetter c = true) : isDigit c = false := by
  refine Bool.eq_false_iff.mpr fun hdigit => ?_
  simp only [isLetter, isDigit, Bool.or_eq_true, Bool.and_eq_true, decide_eq_true_eq, Char.le_def,
    UInt32.le_iff_toNat_le] at h hdigit
  have hnine : '9'.val.toNat < 'A'.val.toNat := by decide
  have hupper : 'A'.val.toNat ≤ 'a'.val.toNat := by decide
  omega

/-- A text that starts a lexeme and holds nothing else, where a blank follows. -/
def StartsAs (x : Lexeme) (text : List Char) : Prop :=
  ∃ c cs, text = c :: cs ∧ isBlank c = false ∧
    ∀ rest, lexemeAt c (cs ++ ' ' :: rest) = .ok ⟨x, cs.length⟩

theorem startsAs_number {x : Binary64} (hx : x.isFinite = true) : StartsAs (.number x) x.chars := by
  obtain ⟨m, hm, rfl⟩ := exists_numeral_chars hx
  obtain ⟨c, cs, hchars, hnameChar⟩ := exists_cons_chars m
  refine ⟨c, cs, hm.trans hchars, hnameChar, fun rest => ?_⟩
  have hpoint : (' ' :: rest).head? ≠ some '.' := by
    intro h
    cases h
  rw [lexemeAt_numeral hchars (endsAt_blank rfl rest) hpoint, if_pos hx]

theorem startsAs_string (value : String) : StartsAs (.string value) (chars (.string value)) := by
  have hread := unescapes_flatMap fun c (_ : c ∈ value.toList) => unescapes_stringChar c
  refine ⟨'"', value.toList.flatMap stringChar ++ ['"'], rfl, rfl, fun rest => ?_⟩
  rw [List.append_assoc, List.length_append]
  show lexemeAt '"' (value.toList.flatMap stringChar ++ '"' :: ' ' :: rest) = _
  rw [lexemeAt_string hread, String.ofList_toList]
  rfl

/-- A word is read as far as it goes. -/
theorem lexemeAt_word {c : Char} {cs : List Char} (h : Text.isName (c :: cs) = true)
    {rest : List Char} (hrest : EndsAt isNameChar rest) :
    lexemeAt c (cs ++ rest) = .ok ⟨ofWord (c :: cs), cs.length⟩ := by
  obtain ⟨hletter, hall⟩ := Bool.and_eq_true_iff.mp h
  obtain ⟨hbang, hminus, hquote, -⟩ := special_of_isNameChar (isNameChar_of_isLetter hletter)
  rw [lexemeAt_plain hbang hminus hquote, isDigit_of_isLetter hletter, if_neg Bool.false_ne_true,
    if_pos hletter, Text.takeWhile_segment (List.all_eq_true.mp hall) hrest]

/-- A word is read up to the blank. -/
theorem startsAs_word (word : List Char) (h : Text.isName word = true) :
    StartsAs (ofWord word) word := by
  cases word with
  | nil => cases h
  | cons c cs =>
    have hletter := isNameChar_of_isLetter (Bool.and_eq_true_iff.mp h).1
    exact ⟨c, cs, rfl, (special_of_isNameChar hletter).2.2.2,
      fun rest => lexemeAt_word h (endsAt_blank rfl rest)⟩

theorem startsAs_symbol (s : Symbol) : StartsAs (.symbol s) s.spelling.toList := by
  cases s <;> exact ⟨_, _, rfl, rfl, fun _ => rfl⟩

/-- **The text of a lexeme is read as this lexeme**, where a blank follows. -/
theorem startsAs_chars {x : Lexeme} (hx : x.isSpellable = true) (hfinish : x ≠ .finish) :
    StartsAs x x.chars := by
  cases x with
  | number value => exact startsAs_number hx
  | string value => exact startsAs_string value
  | name word =>
    have hread := startsAs_word word.toList (Bool.and_eq_true_iff.mp hx).1
    rw [ofWord_of_isFreeName hx] at hread
    exact hread
  | null => exact startsAs_word "null".toList (by decide)
  | bool value =>
    cases value
    · exact startsAs_word "false".toList (by decide)
    · exact startsAs_word "true".toList (by decide)
  | symbol s => exact startsAs_symbol s
  | finish => exact absurd rfl hfinish

end Lexeme

namespace Token

open Lexeme

/-- Characters that belong to the token before are passed over. -/
theorem scanFrom_pending (pos : Nat) (cs rest : List Char) :
    scanFrom pos cs.length (cs ++ rest) = scanFrom (pos + cs.length) 0 rest := by
  induction cs generalizing pos with
  | nil => rfl
  | cons c cs ih =>
    rw [List.length_cons, List.cons_append, scanFrom, ih, Nat.add_right_comm, Nat.add_assoc]

/-- A lexeme that takes up the rest of the text is the last one. -/
theorem scanFrom_lone {c : Char} {cs : List Char} {x : Lexeme} (hblank : isBlank c = false)
    (h : lexemeAt c cs = .ok ⟨x, cs.length⟩) (pos : Nat) :
    scanFrom pos 0 (c :: cs) = .ok [⟨x, pos⟩, ⟨.finish, pos + 1 + cs.length⟩] := by
  have hrest : scanFrom (pos + 1) cs.length cs = .ok [⟨.finish, pos + 1 + cs.length⟩] := by
    have hpending := scanFrom_pending (pos + 1) cs []
    rwa [List.append_nil] at hpending
  simp only [scanFrom, hblank, h, hrest]
  rfl

/-- A fault where the text starts is the fault of the text. -/
theorem scanFrom_of_lexemeAt_error {c : Char} {cs : List Char} {fault : Fault}
    (hblank : isBlank c = false) (h : lexemeAt c cs = .error fault) (pos : Nat) :
    scanFrom pos 0 (c :: cs) = .error ⟨fault.1, pos + fault.2⟩ := by
  simp only [scanFrom, hblank, h]
  rfl

/-- A numeral is scanned as the number that it stands for, if that is in range. -/
theorem scan_numeral {m : Numeral} {text : String} (h : text.toList = m.chars) :
    ∃ first, scan text = if m.value.isFinite then .ok [⟨.number m.value, 0⟩, ⟨.finish, text.length⟩]
      else .error ⟨.outOfRange first, 0⟩ := by
  obtain ⟨c, cs, hchars, hblank⟩ := exists_cons_chars m
  have hread : lexemeAt c cs = if m.value.isFinite then .ok ⟨.number m.value, cs.length⟩
      else .error (.outOfRange c, 0) := by
    have hend : EndsAt isDigit [] := fun _ hc => by cases hc
    have hwhole := lexemeAt_numeral hchars hend (by simp)
    rwa [List.append_nil] at hwhole
  have hlength : text.length = 0 + 1 + cs.length := by
    rw [← String.length_toList, h, hchars, List.length_cons]
    omega
  refine ⟨c, ?_⟩
  unfold scan
  rw [hlength, h, hchars]
  cases hfinite : m.value.isFinite with
  | true =>
    rw [hfinite, if_pos rfl] at hread
    rw [scanFrom_lone hblank hread, if_pos rfl]
  | false =>
    rw [hfinite, if_neg Bool.false_ne_true] at hread
    rw [scanFrom_of_lexemeAt_error hblank hread]
    rfl

/-- Texts of lexemes are scanned as these lexemes, wherever they start. -/
theorem exists_scanFrom_written {w : List Lexeme} (hw : ∀ x ∈ w, x.isSpellable = true)
    (hfinish : .finish ∉ w) (pos : Nat) :
    ∃ tokens, scanFrom pos 0 (written w) = .ok tokens ∧
      tokens.map Token.lexeme = w ++ [.finish] := by
  -- on the word: a blank is written behind each lexeme, so the next one starts afresh
  induction w generalizing pos with
  | nil => exact ⟨_, rfl, rfl⟩
  | cons x w ih =>
    obtain ⟨hx, hw⟩ := List.forall_mem_cons.mp hw
    have hne : x ≠ .finish := fun heq => hfinish (heq ▸ List.mem_cons_self)
    have hnot : .finish ∉ w := fun hmem => hfinish (List.mem_cons_of_mem _ hmem)
    obtain ⟨c, cs, hchars, hblank, hread⟩ := startsAs_chars hx hne
    obtain ⟨tokens, hscan, hlexemes⟩ := ih hw hnot (pos + 1 + cs.length + 1)
    refine ⟨⟨x, pos⟩ :: tokens, ?_, by rw [List.map_cons, hlexemes]; rfl⟩
    have hrest : scanFrom (pos + 1) cs.length (cs ++ ' ' :: written w) = .ok tokens := by
      rw [scanFrom_pending]
      exact hscan
    rw [written_cons, hchars, List.cons_append]
    simp only [scanFrom, hblank, hread, hrest]
    rfl

/-- **Texts of lexemes are scanned as these lexemes**, and nothing else before the end
    of the input. -/
theorem exists_scan_written {w : List Lexeme} (hw : ∀ x ∈ w, x.isSpellable = true)
    (hfinish : .finish ∉ w) :
    ∃ tokens, scan (String.ofList (written w)) = .ok tokens ∧
      tokens.map Token.lexeme = w ++ [.finish] := by
  unfold scan
  rw [String.toList_ofList]
  exact exists_scanFrom_written hw hfinish 0

end Token

end Sigil

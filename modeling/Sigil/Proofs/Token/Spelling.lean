import Sigil.Proofs.Token.Written

/-!
# The spellings of lexemes

`Lexeme.Spelling` says which texts spell which lexeme, without a look at the scan: symbols and
literal words are written as they are, other names are themselves, a number is any numeral that
stands for it, and a string is any text between quotes whose escapes stand for its characters.

Where a lexeme starts, the scan takes the longest spelling of any lexeme (`longest_of_lexemeAt`).
The first character tells which kind of spelling it can be, and each kind has its own reason to end:
a numeral and a word at the first character of another kind, a string at the first quote that is not
escaped, a symbol where it has no longer sibling.
-/

namespace Sigil

open Text (isDigit isLetter isNameChar isBlank EndsAt)

namespace Text

/-- A first segment of one kind is no longer than what can be taken of that kind. -/
theorem length_le_takeWhile {kind : Char → Bool} {as bs : List Char} (h : as <+: bs)
    (ha : ∀ c ∈ as, kind c = true) : as.length ≤ (bs.takeWhile kind).length := by
  obtain ⟨rest, rfl⟩ := h
  rw [List.takeWhile_append_of_pos ha, List.length_append]
  exact Nat.le_add_right _ _

end Text

namespace Lexeme

/-! ## 1. Spellings -/

/-- The texts that spell a lexeme. The end of the input has none. -/
inductive Spelling : List Char → Lexeme → Prop where
  | symbol (s : Symbol) : Spelling s.spelling.toList (.symbol s)
  | null : Spelling "null".toList .null
  | isTrue : Spelling "true".toList (.bool true)
  | isFalse : Spelling "false".toList (.bool false)
  | name (word : String) (free : isFreeName word = true) : Spelling word.toList (.name word)
  | number (m : Numeral) : Spelling m.chars (.number m.value)
  | string {body value : List Char} (unescapes : Unescapes body value) :
    Spelling ('"' :: (body ++ ['"'])) (.string (String.ofList value))

/-- The word spells the lexeme and stands first in the text, and no longer word that stands
    there spells any lexeme. -/
structure Longest (text word : List Char) (x : Lexeme) : Prop where
  first : word <+: text
  spelling : Spelling word x
  longest : ∀ other y, other <+: text → Spelling other y → other.length ≤ word.length

/-- A name is spelt by itself, whether it is a literal word or not. -/
theorem spelling_ofWord {word : List Char} (h : Text.isName word = true) :
    Spelling word (ofWord word) := by
  have hspellable := isSpellable_ofWord h
  rw [ofWord_eq] at hspellable ⊢
  split
  · next hword => exact hword ▸ .null
  · next hnull =>
    rw [if_neg hnull] at hspellable
    split
    · next hword => exact hword ▸ .isTrue
    · next htrue =>
      rw [if_neg htrue] at hspellable
      split
      · next hword => exact hword ▸ .isFalse
      · next hfalse =>
        rw [if_neg hfalse] at hspellable
        have hname := Spelling.name (String.ofList word) hspellable
        rwa [String.toList_ofList] at hname

/-- The kinds of spellings. -/
inductive Kind : List Char → Prop where
  | symbol (s : Symbol) : Kind s.spelling.toList
  | word {word : List Char} (isName : Text.isName word = true) : Kind word
  | numeral (m : Numeral) : Kind m.chars
  | quoted {body value : List Char} (unescapes : Unescapes body value) :
    Kind ('"' :: (body ++ ['"']))

theorem Spelling.ne_finish {word : List Char} {x : Lexeme} (h : Spelling word x) : x ≠ .finish := by
  cases h <;> exact Lexeme.noConfusion

theorem Spelling.kind {word : List Char} {x : Lexeme} (h : Spelling word x) : Kind word := by
  cases h with
  | symbol s => exact .symbol s
  | null | isTrue | isFalse => exact .word (by decide)
  | name word free => exact .word (Bool.and_eq_true_iff.mp free).1
  | number m => exact .numeral m
  | string unescapes => exact .quoted unescapes

/-! ## 2. Strings -/

/-- A string ends at the first quote that is not escaped. -/
theorem Unescapes.unique {body body' value value' rest rest' : List Char} (h : Unescapes body value)
    (h' : Unescapes body' value') (heq : body ++ '"' :: rest = body' ++ '"' :: rest') :
    body = body' := by
  -- both bodies go on in the same way, as a quote and a backslash never stand for themselves
  induction h generalizing body' value' with
  | nil =>
    cases h' with
    | nil => rfl
    | plain noQuote _ _ => exact absurd (List.cons.inj heq).1.symm noQuote
    | escape _ _ => cases (List.cons.inj heq).1
  | plain noQuote noBackslash _ ih =>
    cases h' with
    | nil => exact absurd (List.cons.inj heq).1 noQuote
    | plain _ _ tail =>
      obtain ⟨rfl, hrest⟩ := List.cons.inj heq
      rw [ih tail hrest]
    | escape _ _ => exact absurd (List.cons.inj heq).1 noBackslash
  | escape _ _ ih =>
    cases h' with
    | nil => cases (List.cons.inj heq).1
    | plain _ noBackslash _ => exact absurd (List.cons.inj heq).1.symm noBackslash
    | escape _ tail =>
      obtain ⟨rfl, hrest⟩ := List.cons.inj (List.cons.inj heq).2
      rw [ih tail hrest]

/-- What is read of a string is a text that unescapes to its value, and the quote behind it. -/
theorem unescapes_of_stringFrom {taken length : Nat} {cs value : List Char}
    (h : stringFrom taken cs = .ok (value, length)) :
    ∃ body rest, cs = body ++ '"' :: rest ∧ Unescapes body value ∧
      length = taken + body.length + 1 := by
  fun_induction stringFrom taken cs generalizing value length with
  | case1 taken rest =>
    cases h
    exact ⟨[], rest, rfl, .nil, rfl⟩
  | case2 => cases h
  | case3 taken c rest d hescape value' length' hread ih =>
    cases h
    obtain ⟨body, rest', rfl, hbody, rfl⟩ := ih hread
    refine ⟨'\\' :: c :: body, rest', rfl, .escape hescape hbody, ?_⟩
    simp only [List.length_cons]
    omega
  | case4 => cases h
  | case5 => cases h
  | case6 taken c rest hquote _ hbackslash value' length' hread ih =>
    cases h
    obtain ⟨body, rest', rfl, hbody, rfl⟩ := ih hread
    refine ⟨c :: body, rest', rfl, .plain hquote hbackslash hbody, ?_⟩
    simp only [List.length_cons]
    omega
  | case7 => cases h
  | case8 => cases h

/-- Behind a quote nothing but a string is found. -/
theorem string_of_lexemeAt {cs : List Char} {found : Found} (h : lexemeAt '"' cs = .ok found) :
    ∃ body value rest, cs = body ++ '"' :: rest ∧ Unescapes body value ∧
      found = ⟨.string (String.ofList value), body.length + 1⟩ := by
  cases hread : stringFrom 0 cs with
  | error fault =>
    simp only [lexemeAt, hread] at h
    cases h
  | ok read =>
    obtain ⟨value, length⟩ := read
    obtain ⟨body, rest, rfl, hbody, rfl⟩ := unescapes_of_stringFrom hread
    rw [lexemeAt_string hbody] at h
    exact ⟨body, value, rest, rfl, hbody, (Except.ok.inj h).symm⟩

/-- The word of a string is what stands between the quotes, and the quote behind it. -/
theorem string_word_of_lexemeAt {word rest : List Char} {x : Lexeme}
    (h : lexemeAt '"' (word ++ rest) = .ok ⟨x, word.length⟩) :
    ∃ body value, word = body ++ ['"'] ∧ Unescapes body value ∧
      x = .string (String.ofList value) := by
  obtain ⟨body, value, behind, hsplit, hbody, hfound⟩ := string_of_lexemeAt h
  obtain ⟨rfl, hlength⟩ := Found.mk.inj hfound
  have hword : word ++ rest = (body ++ ['"']) ++ behind := by
    rw [hsplit, List.append_assoc]
    rfl
  refine ⟨body, value, (List.append_inj hword ?_).1, hbody, rfl⟩
  rw [hlength, List.length_append]
  rfl

/-! ## 3. Numerals -/

theorem exists_of_fractionOf {cs : List Char} (h : fractionOf cs ≠ []) :
    ∃ rest, cs = '.' :: (fractionOf cs ++ rest) ∧ EndsAt isDigit rest := by
  unfold fractionOf at h ⊢
  split at h
  · next rest =>
    exact ⟨rest.dropWhile isDigit, by rw [List.takeWhile_append_dropWhile],
      Text.endsAt_dropWhile _ _⟩
  · exact absurd rfl h

theorem isDigit_of_mem_fractionOf {cs : List Char} : ∀ c ∈ fractionOf cs, isDigit c = true := by
  unfold fractionOf
  split
  · exact List.all_eq_true.mp List.all_takeWhile
  · exact fun _ hc => absurd hc List.not_mem_nil

/-- No numeral that stands first is longer than the digits, and the point with the
    digits behind it. -/
theorem length_magnitude_le {digits : List Char} {m : Numeral} (h : m.magnitude <+: digits) :
    m.magnitude.length ≤ (digits.takeWhile isDigit).length +
      (Numeral.pointed (fractionOf (digits.drop (digits.takeWhile isDigit).length))).length := by
  obtain ⟨rest, rfl⟩ := h
  unfold Numeral.magnitude
  cases hfraction : m.fraction with
  | nil =>
    rw [Numeral.pointed, List.append_nil]
    exact Nat.le_trans (Text.length_le_takeWhile (List.prefix_append _ _) m.isDigit_whole)
      (Nat.le_add_right _ _)
  | cons c fraction =>
    -- the point ends the digits before it, so that the digits behind it are those of the fraction
    have hwhole :
        (m.whole ++ Numeral.pointed (c :: fraction) ++ rest).takeWhile isDigit = m.whole := by
      rw [List.append_assoc]
      exact Text.takeWhile_segment m.isDigit_whole (Text.endsAt_cons.mpr rfl)
    rw [hwhole, List.append_assoc, List.drop_left, List.length_append]
    have hdigits : ∀ d ∈ c :: fraction, isDigit d = true := hfraction ▸ m.isDigit_fraction
    have hle : (c :: fraction).length ≤ ((c :: fraction ++ rest).takeWhile isDigit).length :=
      Text.length_le_takeWhile (List.prefix_append _ _) hdigits
    have hread : fractionOf (Numeral.pointed (c :: fraction) ++ rest) =
        (c :: fraction ++ rest).takeWhile isDigit := rfl
    have hne : fractionOf (Numeral.pointed (c :: fraction) ++ rest) ≠ [] := by
      rw [hread]
      exact List.ne_nil_of_length_pos (Nat.lt_of_lt_of_le (Nat.succ_pos _) hle)
    rw [Numeral.pointed_of_ne_nil hne, hread]
    exact Nat.add_le_add_left (Nat.succ_le_succ hle) _

/-- What is read of a number is the longest numeral, and this ends there. -/
theorem numeral_of_numberAt {first : Char} {negative : Bool} {digits : List Char} {found : Found}
    (h : numberAt first negative digits = .ok found) :
    ∃ (m : Numeral) (rest : List Char), digits = m.magnitude ++ rest ∧ NumeralEnds m rest ∧
      m.negative = negative ∧
      found = ⟨.number m.value, if negative then m.magnitude.length else m.magnitude.length - 1⟩ ∧
      ∀ other : Numeral, other.magnitude <+: digits →
        other.magnitude.length ≤ m.magnitude.length := by
  unfold numberAt at h
  dsimp only at h
  split at h
  · cases h
  · next hwhole =>
    split at h
    · cases h
      let whole := digits.takeWhile isDigit
      let m : Numeral := ⟨negative, whole, fractionOf (digits.drop whole.length),
        fun hnil => hwhole (List.isEmpty_iff.mpr hnil), List.all_eq_true.mp List.all_takeWhile,
        isDigit_of_mem_fractionOf⟩
      have hlength :
          whole.length + (if m.fraction.isEmpty = true then 0 else m.fraction.length + 1) =
          m.magnitude.length := by
        show _ = (whole ++ Numeral.pointed m.fraction).length
        rw [List.length_append]
        cases m.fraction <;> rfl
      have hsplit : whole ++ digits.dropWhile isDigit = digits := List.takeWhile_append_dropWhile
      have hdrop : digits.drop whole.length = digits.dropWhile isDigit := by
        calc digits.drop whole.length =
          (whole ++ digits.dropWhile isDigit).drop whole.length := by rw [hsplit]
          _ = digits.dropWhile isDigit := List.drop_left
      -- what follows is no digit, and no point with a digit if there is no fraction
      obtain ⟨rest, hrest, hends⟩ : ∃ rest,
          digits.dropWhile isDigit = Numeral.pointed m.fraction ++ rest ∧ NumeralEnds m rest := by
        by_cases hfraction : m.fraction = []
        · refine ⟨digits.dropWhile isDigit, by rw [hfraction]; rfl,
            Text.endsAt_dropWhile _ _, fun _ => ?_⟩
          rw [← hdrop]
          exact hfraction
        · obtain ⟨rest, hrest, hdigit⟩ := exists_of_fractionOf hfraction
          refine ⟨rest, ?_, hdigit, fun hnil => absurd hnil hfraction⟩
          rw [Numeral.pointed_of_ne_nil hfraction, ← hdrop]
          exact hrest
      refine ⟨m, rest, ?_, hends, rfl, ?_, fun other hother => ?_⟩
      · show digits = whole ++ Numeral.pointed m.fraction ++ rest
        rw [List.append_assoc, ← hrest, hsplit]
      · rw [← hlength]
        rfl
      · have hle := length_magnitude_le hother
        show _ ≤ (whole ++ Numeral.pointed m.fraction).length
        rwa [List.length_append]
    · cases h

/-! ## 4. What the first character tells -/

/-- A symbol of one character, or one of the two of two characters. -/
theorem symbol_start {s : Symbol} {c : Char} {w : List Char} (h : s.spelling.toList = c :: w) :
    (c = '!' ∧ w = ['=']) ∨ (c = '-' ∧ w = ['>']) ∨ (w = [] ∧ symbolOf? c = some s) := by
  cases s <;> cases h
  case unequal => exact .inl ⟨rfl, rfl⟩
  case arrow => exact .inr (.inl ⟨rfl, rfl⟩)
  all_goals exact .inr (.inr ⟨rfl, rfl⟩)

/-- A numeral starts with a minus sign or with a digit. -/
theorem numeral_start {m : Numeral} {c : Char} {w : List Char} (h : m.chars = c :: w) :
    (c = '-' ∧ m.magnitude = w) ∨ (isDigit c = true ∧ m.magnitude = c :: w) := by
  unfold Numeral.chars at h
  split at h
  · cases h
    exact .inl ⟨rfl, rfl⟩
  · obtain ⟨d, ds, hds, hdigit⟩ := exists_cons_magnitude m
    rw [hds] at h
    exact .inr ⟨(List.cons.inj h).1 ▸ hdigit, hds.trans h⟩

/-- A symbol of one character is no digit and no letter. -/
theorem symbolOf?_of_isNameChar {c : Char} (h : isNameChar c = true) : symbolOf? c = none := by
  unfold symbolOf?
  split <;> first | rfl | cases h

/-- No spelling is empty. -/
theorem Kind.ne_nil {word : List Char} (h : Kind word) : word ≠ [] := by
  cases h with
  | symbol s => cases s <;> exact List.cons_ne_nil _ _
  | word isName =>
    rintro rfl
    cases isName
  | numeral m =>
    obtain ⟨d, ds, hds, -⟩ := exists_cons_magnitude m
    unfold Numeral.chars
    split <;> simp [hds]
  | quoted => exact List.cons_ne_nil _ _

/-- What spellings may start with this character. -/
inductive Start (c : Char) (w : List Char) : Prop where
  | unequal (bang : c = '!') (rest_eq : w = ['='])
  | arrow (minus : c = '-') (rest_eq : w = ['>'])
  | symbol (s : Symbol) (char : symbolOf? c = some s) (rest_eq : w = [])
  | word (letter : isLetter c = true) (rest : ∀ d ∈ w, isNameChar d = true)
  | negative (minus : c = '-') (m : Numeral) (magnitude : m.magnitude = w)
  | numeral (digit : isDigit c = true) (m : Numeral) (magnitude : m.magnitude = c :: w)
  | quoted (quote : c = '"') (body value : List Char) (unescapes : Unescapes body value)
    (rest_eq : w = body ++ ['"'])

theorem Kind.start {c : Char} {w : List Char} (h : Kind (c :: w)) : Start c w := by
  generalize hword : c :: w = word at h
  -- the first character tells the kinds apart, two of which share theirs with a symbol
  cases h with
  | symbol s =>
    rcases symbol_start hword.symm with ⟨hc, hw⟩ | ⟨hc, hw⟩ | ⟨hw, hs⟩
    · exact .unequal hc hw
    · exact .arrow hc hw
    · exact .symbol s hs hw
  | word isName =>
    subst hword
    obtain ⟨hletter, hall⟩ := Bool.and_eq_true_iff.mp isName
    exact .word hletter (List.all_eq_true.mp hall)
  | numeral m =>
    rcases numeral_start hword.symm with ⟨hc, hm⟩ | ⟨hc, hm⟩
    · exact .negative hc m hm
    · exact .numeral hc m hm
  | quoted unescapes =>
    obtain ⟨hc, hw⟩ := List.cons.inj hword
    exact .quoted hc _ _ unescapes hw

/-- No spelling is empty, and none is longer if it starts like this and goes on longer. -/
theorem Longest.of_start {c : Char} {word rest : List Char} {x : Lexeme}
    (spelling : Spelling (c :: word) x)
    (longest : ∀ w, w <+: word ++ rest → Start c w → w.length ≤ word.length) :
    Longest (c :: (word ++ rest)) (c :: word) x where
  first := List.prefix_append (c :: word) rest
  spelling := spelling
  longest other y hother hspelling := by
    cases other with
    | nil => exact Nat.zero_le _
    | cons d w =>
      obtain ⟨rfl, hw⟩ := List.cons_prefix_cons.mp hother
      exact Nat.succ_le_succ (longest w hw hspelling.kind.start)

/-! ## 5. The longest spelling -/

/-- The lexeme that is found takes the longest spelling in the text. -/
def Found.Takes (found : Found) (c : Char) (cs : List Char) : Prop :=
  ∃ word rest, cs = word ++ rest ∧ word.length = found.extra ∧
    Longest (c :: cs) (c :: word) found.lexeme

theorem takes_unequal (rest : List Char) : Found.Takes ⟨.symbol .unequal, 1⟩ '!' ('=' :: rest) := by
  refine ⟨['='], rest, rfl, rfl, .of_start (.symbol .unequal) fun w _ hstart => ?_⟩
  cases hstart with
  | unequal _ rest_eq =>
    subst rest_eq
    exact Nat.le_refl 1
  | symbol _ _ rest_eq =>
    subst rest_eq
    exact Nat.zero_le 1
  | arrow minus | negative minus => cases minus
  | word letter => cases letter
  | numeral digit => cases digit
  | quoted quote => cases quote

theorem takes_arrow (rest : List Char) : Found.Takes ⟨.symbol .arrow, 1⟩ '-' ('>' :: rest) := by
  refine ⟨['>'], rest, rfl, rfl, .of_start (.symbol .arrow) fun w hw hstart => ?_⟩
  cases hstart with
  | arrow _ rest_eq =>
    subst rest_eq
    exact Nat.le_refl 1
  | negative _ m magnitude =>
    -- a numeral would go on with a digit
    obtain ⟨d, ds, hds, hdigit⟩ := exists_cons_magnitude m
    rw [← magnitude, hds] at hw
    rw [(List.cons_prefix_cons.mp hw).1] at hdigit
    cases hdigit
  | unequal bang => cases bang
  | symbol _ char => cases char
  | word letter => cases letter
  | numeral digit => cases digit
  | quoted quote => cases quote

theorem takes_negative {cs : List Char} {found : Found} (h : numberAt '-' true cs = .ok found) :
    found.Takes '-' cs := by
  obtain ⟨m, rest, rfl, -, hnegative, rfl, hlongest⟩ := numeral_of_numberAt h
  have hchars : m.chars = '-' :: m.magnitude := by rw [Numeral.chars, if_pos hnegative]
  refine ⟨m.magnitude, rest, rfl, rfl, .of_start (hchars ▸ .number m) fun w hw hstart => ?_⟩
  -- the arrow is shorter than any negative numeral
  cases hstart with
  | arrow _ rest_eq =>
    obtain ⟨d, ds, hds, -⟩ := exists_cons_magnitude m
    rw [rest_eq, hds]
    exact Nat.succ_le_succ (Nat.zero_le _)
  | negative _ other magnitude => exact magnitude ▸ hlongest other (magnitude ▸ hw)
  | unequal bang => cases bang
  | symbol _ char => cases char
  | word letter => cases letter
  | numeral digit => cases digit
  | quoted quote => cases quote

theorem takes_string {cs value : List Char} {length : Nat}
    (h : stringFrom 0 cs = .ok (value, length)) :
    Found.Takes ⟨.string (String.ofList value), length⟩ '"' cs := by
  obtain ⟨body, rest, rfl, hbody, rfl⟩ := unescapes_of_stringFrom h
  have hsplit : body ++ '"' :: rest = body ++ ['"'] ++ rest := by simp
  refine ⟨body ++ ['"'], rest, hsplit, by simp, ?_⟩
  rw [hsplit]
  refine .of_start (.string hbody) fun w hw hstart => ?_
  cases hstart with
  | quoted _ other value' unescapes rest_eq =>
    obtain ⟨rest', hrest'⟩ := hw
    rw [rest_eq, List.append_assoc, List.append_assoc] at hrest'
    have hsame := unescapes.unique hbody hrest'
    exact Nat.le_of_eq (by rw [rest_eq, hsame])
  | unequal bang => cases bang
  | arrow minus | negative minus => cases minus
  | symbol _ char => cases char
  | word letter => cases letter
  | numeral digit => cases digit

theorem takes_number {c : Char} {cs : List Char} {found : Found} (hdigit : isDigit c = true)
    (h : numberAt c false (c :: cs) = .ok found) : found.Takes c cs := by
  obtain ⟨m, rest, hm, -, hnegative, rfl, hlongest⟩ := numeral_of_numberAt h
  obtain ⟨d, word, hword, -⟩ := exists_cons_magnitude m
  rw [hword] at hm
  obtain ⟨rfl, rfl⟩ := List.cons.inj hm
  have hchars : m.chars = c :: word := by
    rw [Numeral.chars, hnegative, if_neg Bool.false_ne_true, hword]
  have hextra : word.length = m.magnitude.length - 1 := by rw [hword]; rfl
  obtain ⟨hbang, hminus, hquote, -⟩ := special_of_isNameChar (isNameChar_of_isDigit hdigit)
  refine ⟨word, rest, rfl, hextra, .of_start (hchars ▸ .number m) fun w hw hstart => ?_⟩
  -- a digit starts numerals only, and no other of them is longer
  cases hstart with
  | numeral _ other magnitude =>
    have hle := hlongest other (magnitude ▸ List.cons_prefix_cons.mpr ⟨rfl, hw⟩)
    rw [magnitude, hword] at hle
    exact Nat.le_of_succ_le_succ hle
  | symbol s char =>
    rw [symbolOf?_of_isNameChar (isNameChar_of_isDigit hdigit)] at char
    cases char
  | word letter =>
    rw [isDigit_of_isLetter letter] at hdigit
    cases hdigit
  | unequal bang => exact absurd bang hbang
  | arrow minus | negative minus => exact absurd minus hminus
  | quoted quote => exact absurd quote hquote

theorem takes_word {c : Char} (hletter : isLetter c = true) (cs : List Char) :
    Found.Takes ⟨ofWord (c :: cs.takeWhile isNameChar), (cs.takeWhile isNameChar).length⟩ c cs := by
  have hname : Text.isName (c :: cs.takeWhile isNameChar) = true :=
    Bool.and_eq_true_iff.mpr ⟨hletter, List.all_takeWhile⟩
  have hsplit : cs = cs.takeWhile isNameChar ++ cs.dropWhile isNameChar :=
    List.takeWhile_append_dropWhile.symm
  obtain ⟨hbang, hminus, hquote, -⟩ := special_of_isNameChar (isNameChar_of_isLetter hletter)
  have hlongest : Longest (c :: (cs.takeWhile isNameChar ++ cs.dropWhile isNameChar))
      (c :: cs.takeWhile isNameChar) (ofWord (c :: cs.takeWhile isNameChar)) := by
    refine .of_start (spelling_ofWord hname) fun w hw hstart => ?_
    rw [← hsplit] at hw
    cases hstart with
    | word _ rest => exact Text.length_le_takeWhile hw rest
    | symbol s char =>
      rw [symbolOf?_of_isNameChar (isNameChar_of_isLetter hletter)] at char
      cases char
    | numeral digit =>
      rw [isDigit_of_isLetter hletter] at digit
      cases digit
    | unequal bang => exact absurd bang hbang
    | arrow minus | negative minus => exact absurd minus hminus
    | quoted quote => exact absurd quote hquote
  rw [← hsplit] at hlongest
  exact ⟨_, _, hsplit, rfl, hlongest⟩

theorem spelling_of_symbolOf? {c : Char} {s : Symbol} (h : symbolOf? c = some s) :
    Spelling [c] (.symbol s) := by
  have hspelling : s.spelling.toList = [c] := by
    unfold symbolOf? at h
    split at h <;> cases h <;> rfl
  exact hspelling ▸ .symbol s

theorem takes_symbol {c : Char} {s : Symbol} {cs : List Char} (h : symbolOf? c = some s)
    (hletter : isLetter c ≠ true) (hdigit : isDigit c ≠ true)
    (hbang : ∀ rest, c = '!' → cs = '=' :: rest → False) : Found.Takes ⟨.symbol s, 0⟩ c cs := by
  -- a symbol of one character is the only spelling here but for a longer one that starts with it
  refine ⟨[], cs, rfl, rfl, .of_start (spelling_of_symbolOf? h) fun w hw hstart => ?_⟩
  cases hstart with
  | symbol _ _ rest_eq =>
    subst rest_eq
    exact Nat.le_refl 0
  | unequal bang rest_eq =>
    obtain ⟨rest, hrest⟩ := hw
    rw [rest_eq] at hrest
    exact (hbang rest bang hrest.symm).elim
  | arrow minus | negative minus =>
    rw [minus] at h
    cases h
  | quoted quote =>
    rw [quote] at h
    cases h
  | word letter => exact absurd letter hletter
  | numeral digit => exact absurd digit hdigit

/-- **Where a lexeme starts, the scan takes the longest spelling of any lexeme.** -/
theorem longest_of_lexemeAt {c : Char} {cs : List Char} {found : Found}
    (h : lexemeAt c cs = .ok found) : found.Takes c cs := by
  unfold lexemeAt at h
  split at h
  · cases h
    exact takes_unequal _
  · cases h
    exact takes_arrow _
  · exact takes_negative h
  · split at h
    · next hread =>
      cases h
      exact takes_string hread
    · cases h
  · next hbang _ =>
    split at h
    · next hdigit => exact takes_number hdigit h
    · next hdigit =>
      split at h
      · next hletter =>
        cases h
        exact takes_word hletter _
      · next hletter =>
        split at h
        · next hsymbol =>
          cases h
          exact takes_symbol hsymbol hletter hdigit hbang
        · cases h

end Lexeme

end Sigil

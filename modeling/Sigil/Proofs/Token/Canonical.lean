import Sigil.Expr.Tagged
import Sigil.Proofs.Text.Quoted
import Sigil.Proofs.Token.Written

/-!
# Scanning the canonical texts of numbers and strings

The canonical form writes a number and a string much as an expression spells them, so
they can be scanned.

* The text of a finite number is always scanned as one number, and that equals it (`scan_text`).
* A quoted text is scanned as the string that it quotes if this has no control characters but line
  feeds and tabs. The other controls are quoted by escapes that the scan does not know, and the
  first of these is the fault (`scan_quoted`).
-/

namespace Sigil

open Text (quoted quotedChar)

/-! ## 1. Numbers -/

namespace Token

/-- **The text of a finite number is scanned as one number, and that equals it.** It is digits, with
    a minus sign in front or not, and with a point and further digits behind or not. -/
theorem scan_text {x : Binary64} (hx : x.isFinite = true) :
    ∃ m : Numeral, x.text.toList = m.chars ∧
      scan x.text = .ok [⟨.number m.value, 0⟩, ⟨.finish, x.text.length⟩] ∧
        m.value.same x = true := by
  obtain ⟨m, hm, hsame⟩ := Binary64.exists_numeral_text hx
  obtain ⟨_, hscan⟩ := scan_numeral hm
  rw [if_pos (Binary64.isFinite_of_same hx hsame)] at hscan
  exact ⟨m, hm, hscan, hsame⟩

/-- The first number whose shortest digits have an exponent, and a small one, are scanned
    from all their places. -/
theorem scan_text_without_exponent :
    let large := Binary64.ofBits 0x4341C37937E08000
    let small := Binary64.ofBits 0xBE8421F5F40D8376
    large.text = "10000000000000000" ∧ small.text = "-0.00000015" ∧
      large.isFinite = true ∧ small.isFinite = true ∧
      (∃ m : Numeral, large.text.toList = m.chars ∧
        scan large.text = .ok [⟨.number m.value, 0⟩, ⟨.finish, large.text.length⟩] ∧
        m.value.same large = true) ∧
      ∃ m : Numeral, small.text.toList = m.chars ∧
        scan small.text = .ok [⟨.number m.value, 0⟩, ⟨.finish, small.text.length⟩] ∧
        m.value.same small = true := by
  intro large small
  have hlarge : large.isFinite = true := by decide +kernel
  have hsmall : small.isFinite = true := by decide +kernel
  exact ⟨by decide +kernel, by decide +kernel, hlarge, hsmall, scan_text hlarge, scan_text hsmall⟩

end Token

/-! ## 2. Quoted characters -/

/-- Of the controls below the space only the line feed and the tab are read when they are quoted;
    any other character is. -/
def Text.isReadable (c : Char) : Bool := 0x20 ≤ c.toNat || c == '\n' || c == '\t'

namespace Lexeme

/-- How a character is quoted, for those who read strings: as something that stands for it, or with
    an escape that stands for nothing. -/
inductive Quoting (c : Char) : Prop where
  | known (readable : Text.isReadable c = true) (unescapes : Unescapes (quotedChar c) [c])
  | unknown (unreadable : Text.isReadable c = false) (letter : Char) (more : List Char)
    (quoted_eq : quotedChar c = '\\' :: letter :: more) (unknown : unescape? letter = none)

theorem quoting (c : Char) : Quoting c := by
  by_cases hspecial : c = '"' ∨ c = '\\'
  · have hescape : unescape? c = some c := by rcases hspecial with rfl | rfl <;> rfl
    have hreadable : Text.isReadable c = true := by rcases hspecial with rfl | rfl <;> rfl
    have hquoted : quotedChar c = ['\\', c] := if_pos hspecial
    exact .known hreadable (hquoted ▸ .escape hescape .nil)
  by_cases hfeed : c = '\n'
  · subst hfeed
    exact .known rfl (.escape rfl .nil)
  by_cases hreturn : c = '\r'
  · subst hreturn
    exact .unknown rfl 'r' [] rfl rfl
  by_cases htab : c = '\t'
  · subst htab
    exact .known rfl (.escape rfl .nil)
  by_cases hback : c = '\x08'
  · subst hback
    exact .unknown rfl 'b' [] rfl rfl
  by_cases hform : c = '\x0C'
  · subst hform
    exact .unknown rfl 'f' [] rfl rfl
  have hquoted : quotedChar c =
      if c.toNat < 0x20 then '\\' :: 'u' :: Text.hexDigits 4 c.toNat else [c] := by
    unfold quotedChar
    rw [if_neg hspecial, if_neg hfeed, if_neg hreturn, if_neg htab, if_neg hback, if_neg hform]
  have hreadable : Text.isReadable c = decide (0x20 ≤ c.toNat) := by
    unfold Text.isReadable
    rw [beq_false_of_ne hfeed, beq_false_of_ne htab, Bool.or_false, Bool.or_false]
  by_cases hcontrol : c.toNat < 0x20
  · rw [if_pos hcontrol] at hquoted
    exact .unknown (hreadable.trans (decide_eq_false (Nat.not_le_of_lt hcontrol))) 'u' _ hquoted rfl
  · rw [if_neg hcontrol] at hquoted
    obtain ⟨hquote, hbackslash⟩ := not_or.mp hspecial
    exact .known (hreadable.trans (decide_eq_true (Nat.le_of_not_lt hcontrol)))
      (hquoted ▸ .plain hquote hbackslash .nil)

/-- Readable characters are quoted by what stands for them. -/
theorem unescapes_quoted {cs : List Char} (h : ∀ c ∈ cs, Text.isReadable c = true) :
    Unescapes (cs.flatMap quotedChar) cs := by
  refine unescapes_flatMap fun c hc => ?_
  cases quoting c with
  | known _ unescapes => exact unescapes
  | unknown unreadable =>
    rw [h c hc] at unreadable
    cases unreadable

/-- Any other character is quoted by an escape that stands for nothing. -/
theorem exists_unknown_escape {c : Char} (h : Text.isReadable c = false) :
    ∃ letter more, quotedChar c = '\\' :: letter :: more ∧ unescape? letter = none := by
  cases quoting c with
  | known readable =>
    rw [h] at readable
    cases readable
  | unknown _ letter more quoted_eq unknown => exact ⟨letter, more, quoted_eq, unknown⟩

/-- Such an escape is the fault of the string, whatever is read before it. -/
theorem stringFrom_unknown {body value : List Char} (h : Unescapes body value) {letter : Char}
    (unknown : unescape? letter = none) (taken : Nat) (more : List Char) :
    stringFrom taken (body ++ '\\' :: letter :: more) =
      .error (.unknownEscape letter, taken + body.length + 1) := by
  rw [stringFrom_append h]
  simp only [stringFrom, unknown]
  rfl

end Lexeme

/-! ## 3. Quoted texts -/

namespace Token

/-- The first character of a text that is not readable is quoted by an escape with this letter, and
    this is the place of the escape in the quoted text. -/
inductive FirstUnknown (s : String) : Char → Nat → Prop where
  | intro {front rest more : List Char} {c letter : Char} (split : s.toList = front ++ c :: rest)
    (readable : ∀ d ∈ front, Text.isReadable d = true) (unreadable : Text.isReadable c = false)
    (escape : quotedChar c = '\\' :: letter :: more) :
    FirstUnknown s letter ('"' :: front.flatMap quotedChar).length

variable {s : String}

theorem exists_firstUnknown (h : ¬ ∀ c ∈ s.toList, Text.isReadable c = true) :
    ∃ letter place, FirstUnknown s letter place := by
  have hsome : (s.toList.find? fun c => !Text.isReadable c).isSome = true :=
    List.find?_isSome.mpr (by simpa using h)
  obtain ⟨c, hfind⟩ := Option.isSome_iff_exists.mp hsome
  obtain ⟨hunreadable, front, rest, hs, hall⟩ := List.find?_eq_some_iff_append.mp hfind
  have hc : Text.isReadable c = false := (Bool.not_eq_true' _).mp hunreadable
  have hfront : ∀ d ∈ front, Text.isReadable d = true := by simpa using hall
  obtain ⟨letter, more, hescape, -⟩ := Lexeme.exists_unknown_escape hc
  exact ⟨letter, _, .intro hs hfront hc hescape⟩

/-- The fault of a quoted text is at the first escape that is not known. -/
theorem scan_quoted_of_firstUnknown {letter : Char} {place : Nat}
    (h : FirstUnknown s letter place) :
    scan (quoted s) = .error ⟨.unknownEscape letter, place⟩ := by
  cases h with
  | @intro front rest more c letter split readable unreadable escape =>
    -- what makes the character unreadable is an escape that the scanner does not know
    have hunknown : Lexeme.unescape? letter = none := by
      obtain ⟨letter', more', hescape, hnone⟩ := Lexeme.exists_unknown_escape unreadable
      rw [escape] at hescape
      cases hescape
      exact hnone
    let behind := more ++ (rest.flatMap quotedChar ++ ['"'])
    have hquoted : (quoted s).toList =
        '"' :: (front.flatMap quotedChar ++ '\\' :: letter :: behind) := by
      rw [Text.toList_quoted, split, List.flatMap_append, List.flatMap_cons, escape]
      simp only [behind, List.append_assoc, List.cons_append]
    have hstring := Lexeme.stringFrom_unknown (Lexeme.unescapes_quoted readable) hunknown 0 behind
    have hfault : Lexeme.lexemeAt '"' (front.flatMap quotedChar ++ '\\' :: letter :: behind) =
        .error (.unknownEscape letter, ('"' :: front.flatMap quotedChar).length) := by
      simp only [Lexeme.lexemeAt, hstring, Nat.zero_add, List.length_cons]
    unfold scan
    rw [hquoted, scanFrom_of_lexemeAt_error rfl hfault 0, Nat.zero_add]

/-- A text of readable characters is scanned as the string that it quotes. -/
theorem scan_quoted_of_readable (h : ∀ c ∈ s.toList, Text.isReadable c = true) :
    scan (quoted s) = .ok [⟨.string s, 0⟩, ⟨.finish, (quoted s).length⟩] := by
  have hfound : Lexeme.lexemeAt '"' (s.toList.flatMap quotedChar ++ ['"']) =
      .ok ⟨.string s, (s.toList.flatMap quotedChar ++ ['"']).length⟩ := by
    rw [Lexeme.lexemeAt_string (Lexeme.unescapes_quoted h), String.ofList_toList,
      List.length_append]
    rfl
  have hlength : (quoted s).length = 0 + 1 + (s.toList.flatMap quotedChar ++ ['"']).length := by
    rw [← String.length_toList, Text.toList_quoted, List.length_cons]
    omega
  unfold scan
  rw [hlength, Text.toList_quoted]
  exact scanFrom_lone rfl hfound 0

/-- **A quoted text is scanned as the string that it quotes if and only if all characters of
    this are readable.** Otherwise the fault is an unknown escape, that of the first
    character that is not. -/
theorem scan_quoted (s : String) :
    (Expr.string s).tagged = quoted s ++ ":string" ∧
      (scan (quoted s) = .ok [⟨.string s, 0⟩, ⟨.finish, (quoted s).length⟩] ↔
        ∀ c ∈ s.toList, Text.isReadable c = true) ∧
      ((¬ ∀ c ∈ s.toList, Text.isReadable c = true) → ∃ letter place, FirstUnknown s letter place ∧
        scan (quoted s) = .error ⟨.unknownEscape letter, place⟩) := by
  refine ⟨rfl,
    ⟨fun hscan => Decidable.byContradiction fun h => ?_, scan_quoted_of_readable⟩, fun h => ?_⟩
  · obtain ⟨letter, place, hfirst⟩ := exists_firstUnknown h
    rw [scan_quoted_of_firstUnknown hfirst] at hscan
    cases hscan
  · obtain ⟨letter, place, hfirst⟩ := exists_firstUnknown h
    exact ⟨letter, place, hfirst, scan_quoted_of_firstUnknown hfirst⟩

/-- A tab and a line feed are read, and a bell behind them is not. -/
theorem bell_is_an_unknown_escape :
    let s := "\t\"\n\x07\r"
    quoted s = "\"\\t\\\"\\n\\u0007\\r\"" ∧ (¬ ∀ c ∈ s.toList, Text.isReadable c = true) ∧
      FirstUnknown s 'u' 7 ∧ scan (quoted s) = .error ⟨.unknownEscape 'u', 7⟩ := by
  intro s
  have hquoted : quoted s = "\"\\t\\\"\\n\\u0007\\r\"" := by decide
  have hunreadable : ¬ ∀ c ∈ s.toList, Text.isReadable c = true := by
    intro hall
    cases hall '\x07' (by decide)
  have hfault : scan (quoted s) = .error ⟨.unknownEscape 'u', 7⟩ := by
    rw [hquoted]
    rfl
  obtain ⟨letter, place, hfirst, hscan⟩ := (scan_quoted s).2.2 hunreadable
  rw [hfault] at hscan
  cases hscan
  exact ⟨hquoted, hunreadable, hfirst, hfault⟩

end Token

end Sigil

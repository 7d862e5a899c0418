import Sigil.Document.Declaration
import Sigil.Proofs.Expr.Soundness
import Sigil.Proofs.Token.Spans

/-!
# Declarations

A declaration starts with a word, and so does its first token. No expression starts with a name, and
reading such a line ends at that very token, unless a later character already keeps it from being
scanned (`declaration_is_no_expression`). The three words that are literals are the exception: they
are names for a declaration and no names for the scan, so `null = true` declares a name and is an
equality, too (`literal_declaration_is_an_expression`). A declaration is read as it was written,
also where its name is the word that marks a type (`ofLine?_written`, `ofLine?_type_written`).
-/

namespace Sigil

open Text (isLetter isNameChar isBlank trimStart)

/-! ## 1. The first token of a line -/

namespace Token

/-- Blanks in front only move the tokens. -/
theorem scanFrom_trimStart (pos : Nat) (cs : List Char) :
    scanFrom pos 0 cs = scanFrom (pos + (cs.takeWhile isBlank).length) 0 (trimStart cs) := by
  induction cs generalizing pos with
  | nil => rfl
  | cons c cs ih =>
    unfold trimStart at ih ⊢
    cases hblank : isBlank c with
    | true =>
      rw [List.takeWhile_cons_of_pos hblank, List.dropWhile_cons_of_pos hblank, List.length_cons,
        ← Nat.add_assoc, Nat.add_right_comm, ← ih, scanFrom, if_pos hblank]
    | false =>
      have hneg : ¬ isBlank c = true := Bool.eq_false_iff.mp hblank
      rw [List.takeWhile_cons_of_neg hneg, List.dropWhile_cons_of_neg hneg,
        List.length_nil, Nat.add_zero]

/-- Where a word starts, the first token is that word. -/
theorem exists_of_scanFrom_word {pos : Nat} {c : Char} {cs : List Char} {tokens : List Token}
    (hletter : isLetter c = true) (h : scanFrom pos 0 (c :: cs) = .ok tokens) :
    ∃ rest, tokens = ⟨Lexeme.ofWord ((c :: cs).takeWhile isNameChar), pos⟩ :: rest := by
  have hname : isNameChar c = true := Lexeme.isNameChar_of_isLetter hletter
  obtain ⟨hbang, hminus, hquote, hblank⟩ := Lexeme.special_of_isNameChar hname
  rw [scanFrom, hblank, Lexeme.lexemeAt_plain hbang hminus hquote,
    Lexeme.isDigit_of_isLetter hletter,
    if_neg Bool.false_ne_true, if_neg Bool.false_ne_true, if_pos hletter] at h
  dsimp only at h
  rw [List.takeWhile_cons_of_pos hname]
  split at h
  · next rest _ =>
    cases h
    exact ⟨rest, rfl⟩
  · cases h

theorem isLetter_of_isName_takeWhile {c : Char} {cs : List Char}
    (h : Text.isName ((c :: cs).takeWhile isNameChar) = true) : isLetter c = true := by
  cases hname : isNameChar c with
  | true =>
    rw [List.takeWhile_cons_of_pos hname] at h
    exact (Bool.and_eq_true_iff.mp h).1
  | false =>
    rw [List.takeWhile_cons_of_neg (Bool.eq_false_iff.mp hname)] at h
    cases h

/-- The tokens of a text end in the end of the input. -/
theorem getLast?_of_scan {s : String} {tokens : List Token} (h : scan s = .ok tokens) :
    tokens.getLast? = some ⟨.finish, s.length⟩ := by
  obtain ⟨spans, rfl, -⟩ := scan_covers_the_text h
  exact List.getLast?_concat

end Token

namespace Expr

/-- No expression starts with a name. -/
theorem ofTokens_name {word : String} {pos : Nat} {rest : List Token} {last : Token}
    (hlast : (⟨.name word, pos⟩ :: rest : List Token).getLast? = some last)
    (hfinish : last.lexeme = .finish) :
    ofTokens (⟨.name word, pos⟩ :: rest) = .error (.unexpected ⟨.name word, pos⟩) := by
  unfold ofTokens
  rw [hlast]
  dsimp only
  rw [if_pos hfinish]
  rfl

end Expr

/-! ## 2. The first word of a declaration -/

namespace Declaration

/-- The word that a declaration starts with. -/
def firstWord (d : Declaration) : String := if d.isType then "type" else d.name

theorem takeWhile_of_named? {isType : Bool} {cs : List Char} {d : Declaration}
    (h : named? isType cs = some d) :
    d.isType = isType ∧ d.name = String.ofList (cs.takeWhile isNameChar) ∧
      Text.isName (cs.takeWhile isNameChar) = true := by
  unfold named? at h
  dsimp only at h
  split at h
  · next hname =>
    split at h
    · split at h
      · cases h
      · cases h
        exact ⟨rfl, rfl, hname⟩
    · cases h
  · cases h

/-- Behind the word `type` there is a blank. -/
theorem takeWhile_of_afterTypeWord? {cs rest : List Char} (h : afterTypeWord? cs = some rest) :
    cs.takeWhile isNameChar = "type".toList := by
  unfold afterTypeWord? at h
  split at h
  · next after =>
    split at h
    · next c tail htrim =>
      split at h
      · next hshorter =>
        obtain ⟨-, hlength⟩ := Bool.and_eq_true_iff.mp hshorter
        -- trimming has taken a character, so the first one is a blank
        cases after with
        | nil => cases htrim
        | cons b after =>
          cases hblank : isBlank b with
          | true =>
            have hend : isNameChar b = false := Lexeme.isNameChar_of_isBlank hblank
            show ("type".toList ++ b :: after).takeWhile isNameChar = _
            exact Text.takeWhile_segment (List.all_eq_true.mp rfl) (Text.endsAt_cons.mpr hend)
          | false =>
            unfold trimStart at htrim
            rw [List.dropWhile_cons_of_neg (Bool.eq_false_iff.mp hblank)] at htrim
            cases htrim
            exact absurd (of_decide_eq_true hlength) (Nat.lt_irrefl _)
      · cases h
    · cases h
  · cases h

/-- A declaration starts with a word, behind blanks. -/
theorem firstWord_of_ofLine? {line : List Char} {d : Declaration} (h : ofLine? line = some d) :
    (trimStart line).takeWhile isNameChar = d.firstWord.toList ∧
      Text.isName d.firstWord.toList = true := by
  unfold ofLine? at h
  dsimp only at h
  unfold firstWord
  split at h
  · next rest hafter =>
    obtain ⟨htype, -, -⟩ := takeWhile_of_named? h
    rw [htype, if_pos rfl]
    exact ⟨takeWhile_of_afterTypeWord? hafter, by decide⟩
  · obtain ⟨htype, hname, hisName⟩ := takeWhile_of_named? h
    rw [htype, if_neg Bool.false_ne_true, hname, String.toList_ofList]
    exact ⟨rfl, hisName⟩

/-- **A line that declares something is no expression**, unless it gives a definition to one of the
    three literal words: it cannot be scanned, or its first word is not expected where it stands. -/
theorem declaration_is_no_expression {line : String} {d : Declaration}
    (h : ofLine? line.toList = some d)
    (free : d.isType = true ∨ d.name ∉ ["null", "true", "false"]) :
    (∃ e, Expr.ofText line = .error (.spelling e)) ∨
      Expr.ofText line = .error (.form
        (.unexpected ⟨.name d.firstWord, (line.toList.takeWhile isBlank).length⟩)) := by
  obtain ⟨hword, hname⟩ := firstWord_of_ofLine? h
  -- a word for a literal would be an expression, but it is no name that is declared freely
  have hfree : Lexeme.isFreeName d.firstWord = true := by
    refine Bool.and_eq_true_iff.mpr ⟨hname, ?_⟩
    unfold firstWord
    rcases free with htype | hnot
    · rw [htype]
      rfl
    · split
      · rfl
      · rw [Bool.not_eq_true', Bool.eq_false_iff]
        exact fun hmem => hnot (List.contains_iff_mem.mp hmem)
  unfold Expr.ofText
  cases hscan : Token.scan line with
  | error e => exact .inl ⟨e, rfl⟩
  | ok tokens =>
    refine .inr ?_
    -- the first token is the name, and no expression starts with one
    have hlast := Token.getLast?_of_scan hscan
    unfold Token.scan at hscan
    rw [Token.scanFrom_trimStart, Nat.zero_add] at hscan
    cases hline : trimStart line.toList with
    | nil =>
      rw [hline] at hword
      rw [← hword] at hname
      cases hname
    | cons c cs =>
      rw [hline] at hscan hword
      have hletter : isLetter c = true := Token.isLetter_of_isName_takeWhile (hword ▸ hname)
      obtain ⟨rest, rfl⟩ := Token.exists_of_scanFrom_word hletter hscan
      rw [hword, Lexeme.ofWord_of_isFreeName hfree] at hlast ⊢
      show (Expr.ofTokens _).mapError ReadError.form = _
      rw [Expr.ofTokens_name hlast rfl]
      rfl

/-- A line that declares the word `null` is an equality as well. -/
theorem literal_declaration_is_an_expression :
    ofLine? "null = true".toList = some ⟨false, "null", "true"⟩ ∧
      Expr.ofText "null = true" = .ok (.binary .equality .null (.bool true)) := by
  exact ⟨rfl, rfl⟩

/-- A type declaration may be of a literal word; it is still no expression. -/
theorem type_declaration_is_no_expression :
    let d : Declaration := ⟨true, "null", "$int * $unique"⟩
    ofLine? " type null = $int * $unique".toList = some d ∧
      ((∃ e, Expr.ofText " type null = $int * $unique" = .error (.spelling e)) ∨
        Expr.ofText " type null = $int * $unique" =
          .error (.form (.unexpected ⟨.name "type", 1⟩))) := by
  intro d
  have h : ofLine? " type null = $int * $unique".toList = some d := rfl
  exact ⟨h, declaration_is_no_expression h (.inl rfl)⟩

/-! ## 3. Written declarations -/

/-- A name does not start with a blank, and all its characters go on a name. -/
theorem solid_of_isName {name : List Char} (h : Text.isName name = true) :
    (∀ c ∈ name, isNameChar c = true) ∧ ∃ c cs, name = c :: cs ∧ isLetter c = true ∧
      isBlank c = false := by
  cases name with
  | nil => cases h
  | cons c cs =>
    obtain ⟨hletter, hrest⟩ := Bool.and_eq_true_iff.mp h
    have hname : isNameChar c = true := Lexeme.isNameChar_of_isLetter hletter
    exact ⟨List.forall_mem_cons.mpr ⟨hname, List.all_eq_true.mp hrest⟩, c, cs, rfl, hletter,
      (Lexeme.special_of_isNameChar hname).2.2.2⟩

theorem trimStart_name {name : List Char} (h : Text.isName name = true) (rest : List Char) :
    trimStart (name ++ rest) = name ++ rest := by
  obtain ⟨-, c, cs, rfl, -, hblank⟩ := solid_of_isName h
  exact List.dropWhile_cons_of_neg (Bool.eq_false_iff.mp hblank)

variable {name gap rest : List Char}

theorem takeWhile_written (hname : ∀ c ∈ name, isNameChar c = true)
    (hgap : ∀ c ∈ gap, isBlank c = true) :
    (name ++ (gap ++ '=' :: rest)).takeWhile isNameChar = name := by
  refine Text.takeWhile_segment hname ?_
  cases gap with
  | nil => exact Text.endsAt_cons.mpr rfl
  | cons b gap =>
    exact Text.endsAt_cons.mpr (Lexeme.isNameChar_of_isBlank (hgap b List.mem_cons_self))

theorem trimStart_gap (hgap : ∀ c ∈ gap, isBlank c = true) :
    trimStart (gap ++ '=' :: rest) = '=' :: rest :=
  List.dropWhile_append_of_pos hgap

/-- A name, an equals sign, and a text on one line that does not go on with the sign. -/
theorem named?_written (isType : Bool) (hname : Text.isName name = true)
    (hgap : ∀ c ∈ gap, isBlank c = true)
    (single : rest.head? ≠ some '=') (flat : '\n' ∉ Text.trim rest) :
    named? isType (name ++ (gap ++ '=' :: rest)) =
      some ⟨isType, String.ofList name, String.ofList (Text.trim rest)⟩ := by
  unfold named?
  dsimp only
  rw [takeWhile_written (solid_of_isName hname).1 hgap, if_pos hname, List.drop_left,
    trimStart_gap hgap]
  exact if_neg (not_or.mpr ⟨single, flat⟩)

theorem afterTypeWord?_type (rest : List Char) :
    afterTypeWord? ("type".toList ++ rest) = match trimStart rest with
      | c :: cs => if isLetter c && cs.length + 1 < rest.length then some (c :: cs) else none
      | [] => none := rfl

/-- In front of an equals sign the word `type` is a name like any other. -/
theorem afterTypeWord?_written (hname : ∀ c ∈ name, isNameChar c = true)
    (hgap : ∀ c ∈ gap, isBlank c = true) :
    afterTypeWord? (name ++ (gap ++ '=' :: rest)) = none := by
  cases hafter : afterTypeWord? (name ++ (gap ++ '=' :: rest)) with
  | none => rfl
  | some after =>
    have hword := takeWhile_of_afterTypeWord? hafter
    rw [takeWhile_written hname hgap] at hword
    rw [hword, afterTypeWord?_type, trimStart_gap hgap] at hafter
    cases hafter

/-- The word `type` and a name, blanks between them. -/
theorem afterTypeWord?_name {between : List Char} (hbetween : ∀ c ∈ between, isBlank c = true)
    (nonempty : between ≠ []) (hname : Text.isName name = true) (rest : List Char) :
    afterTypeWord? ("type".toList ++ (between ++ (name ++ rest))) = some (name ++ rest) := by
  have hstart : trimStart (between ++ (name ++ rest)) = name ++ rest :=
    (List.dropWhile_append_of_pos hbetween).trans (trimStart_name hname rest)
  obtain ⟨-, c, cs, rfl, hletter, -⟩ := solid_of_isName hname
  have hshorter : (cs ++ rest).length + 1 < (between ++ (c :: cs ++ rest)).length := by
    have hpos := List.length_pos_of_ne_nil nonempty
    simp only [List.cons_append, List.length_append, List.length_cons]
    omega
  rw [afterTypeWord?_type, hstart]
  exact if_pos (Bool.and_eq_true_iff.mpr ⟨hletter, decide_eq_true hshorter⟩)

/-- **A written declaration is read as it was meant**, that of the name `type` too. -/
theorem ofLine?_written (hname : Text.isName name = true) (hgap : ∀ c ∈ gap, isBlank c = true)
    (single : rest.head? ≠ some '=') (flat : '\n' ∉ Text.trim rest) :
    ofLine? (name ++ (gap ++ '=' :: rest)) =
      some ⟨false, String.ofList name, String.ofList (Text.trim rest)⟩ := by
  unfold ofLine?
  dsimp only
  rw [trimStart_name hname, afterTypeWord?_written (solid_of_isName hname).1 hgap]
  exact named?_written false hname hgap single flat

theorem ofLine?_type_written {between : List Char} (hbetween : ∀ c ∈ between, isBlank c = true)
    (nonempty : between ≠ []) (hname : Text.isName name = true) (hgap : ∀ c ∈ gap, isBlank c = true)
    (single : rest.head? ≠ some '=') (flat : '\n' ∉ Text.trim rest) :
    ofLine? ("type".toList ++ (between ++ (name ++ (gap ++ '=' :: rest)))) =
      some ⟨true, String.ofList name, String.ofList (Text.trim rest)⟩ := by
  have hword : Text.isName "type".toList = true := by decide
  unfold ofLine?
  dsimp only
  rw [trimStart_name hword, afterTypeWord?_name hbetween nonempty hname]
  exact named?_written true hname hgap single flat

end Declaration

end Sigil

import Sigil.Proofs.Document.Declaration
import Sigil.Proofs.Schema.Accepted
import Sigil.Proofs.Schema.Fields

/-!
# Names that can be defined

A schema and a declaration define the same names (`definable_iff`), and these are the words that the
scan reads whole. An expression refers to such a name behind a dollar and acts on it behind an
exclamation mark, but for the three words that are literals: they can be defined and not be referred
to (`definable_names_are_readable`).
-/

namespace Sigil

open Text (isName isLetter isNameChar isBlank trimStart)

/-! ## 1. Definable names -/

/-- Some schema that is accepted gives the name a definition. -/
def Schema.Accepts (check : FieldCheck) (name : String) : Prop :=
  ∃ fields schema, check Schema.scalarsToText Schema.checkNames fields = .ok schema ∧
    name ∈ schema.definitions.map Prod.fst

/-- Some line is a declaration of the name. -/
def Declaration.Declares (name : String) : Prop :=
  ∃ line d, Declaration.ofLine? line = some d ∧ d.name = name

/-- Any name can stand in a schema, whatever its text. -/
theorem Schema.accepts_iff {check : FieldCheck} (lawful : check.Lawful) {name : String} :
    Accepts check name ↔ isName name.toList = true := by
  constructor
  · rintro ⟨fields, schema, h, hmem⟩
    cases hvalue : Entries.find? "definitions" fields with
    | none =>
      rw [lawful.absent h hvalue] at hmem
      exact absurd hmem List.not_mem_nil
    | some value =>
      obtain ⟨_, _, _, _, _, hnames⟩ := lawful.definitions h hvalue
      obtain ⟨d, hd, rfl⟩ := List.mem_map.mp hmem
      exact hnames d hd
  · intro h
    have htext : Schema.scalarToText (Key.text name) .null = .ok (.string "null") := rfl
    exact ⟨_, _, lawful.accepts "0.1" htext h, List.mem_singleton_self _⟩

/-- Any name can stand in front of an equals sign. -/
theorem Declaration.declares_iff {name : String} : Declares name ↔ isName name.toList = true := by
  constructor
  · rintro ⟨line, d, h, rfl⟩
    unfold ofLine? at h
    dsimp only at h
    split at h
    · obtain ⟨-, hname, hisName⟩ := takeWhile_of_named? h
      rw [hname, String.toList_ofList]
      exact hisName
    · obtain ⟨-, hname, hisName⟩ := takeWhile_of_named? h
      rw [hname, String.toList_ofList]
      exact hisName
  · intro h
    have hline : ofLine? (name.toList ++ ([] ++ '=' :: ['1'])) =
        some ⟨false, String.ofList name.toList, String.ofList ['1']⟩ :=
      ofLine?_written h (List.forall_mem_nil _) (by decide) (by decide)
    exact ⟨_, _, hline, String.ofList_toList⟩

/-- **A schema and a declaration define the same names.** -/
theorem definable_iff {check : FieldCheck} (lawful : check.Lawful) {name : String} :
    Schema.Accepts check name ↔ Declaration.Declares name :=
  (Schema.accepts_iff lawful).trans Declaration.declares_iff.symm

/-! ## 2. Words behind a sigil -/

/-- A sigil and the word behind it, each a token. -/
theorem Token.scan_sigil {c : Char} {s : Symbol} {word : String} (hblank : isBlank c = false)
    (hsigil : Lexeme.lexemeAt c word.toList = .ok ⟨.symbol s, 0⟩) (h : isName word.toList = true) :
    scan (String.singleton c ++ word) =
      .ok [⟨.symbol s, 0⟩, ⟨Lexeme.ofWord word.toList, 1⟩, ⟨.finish, 1 + word.toList.length⟩] := by
  -- the sigil takes one character, and what follows is a single word up to the end
  have hrest : scanFrom 1 0 word.toList =
      .ok [⟨Lexeme.ofWord word.toList, 1⟩, ⟨.finish, 1 + word.toList.length⟩] := by
    cases hword : word.toList with
    | nil =>
      rw [hword] at h
      cases h
    | cons d ds =>
      rw [hword] at h
      have hname := Lexeme.isNameChar_of_isLetter (Bool.and_eq_true_iff.mp h).1
      have hread : Lexeme.lexemeAt d ds = .ok ⟨Lexeme.ofWord (d :: ds), ds.length⟩ := by
        have hend : Text.EndsAt isNameChar [] := fun _ hc => by cases hc
        have hwhole := Lexeme.lexemeAt_word h hend
        rwa [List.append_nil] at hwhole
      rw [scanFrom_lone (Lexeme.special_of_isNameChar hname).2.2.2 hread, List.length_cons,
        Nat.add_comm ds.length, Nat.add_assoc]
  -- a singleton is not one character of a list by computation
  have htext : (String.singleton c ++ word).toList = c :: word.toList := by
    rw [String.toList_append, String.toList_singleton]
    rfl
  unfold scan
  rw [htext]
  simp only [scanFrom, hblank, hsigil, Nat.zero_add, hrest]
  rfl

/-- A name does not start with an equals sign. -/
theorem Text.head?_of_isName {word : List Char} (h : isName word = true) :
    word.head? ≠ some '=' := by
  cases word with
  | nil => cases h
  | cons c cs =>
    intro hhead
    cases Option.some.inj hhead
    cases h

/-! ## 3. Reading a name -/

/-- The words that are literals where an expression is read. -/
def Lexeme.literalWords : List String := ["null", "true", "false"]

/-- **A name with a definition can be referred to and acted on**, unless it is a literal word;
    behind a sigil such a word is refused as no name. -/
theorem definable_names_are_readable {check : FieldCheck} (lawful : check.Lawful) {name : String}
    (h : Schema.Accepts check name ∨ Declaration.Declares name) :
    (name ∉ Lexeme.literalWords →
      Expr.ofText ("$" ++ name) = .ok (.reference name) ∧
        Expr.ofText ("!" ++ name) = .ok (.action name)) ∧
    (name ∈ Lexeme.literalWords →
      Expr.ofText ("$" ++ name) =
          .error (.form (.missingName .dollar ⟨Lexeme.ofWord name.toList, 1⟩)) ∧
        Expr.ofText ("!" ++ name) =
          .error (.form (.missingName .bang ⟨Lexeme.ofWord name.toList, 1⟩))) := by
  -- both ways of defining a name ask for the same spelling
  have hname : isName name.toList = true :=
    h.elim (Schema.accepts_iff lawful).mp Declaration.declares_iff.mp
  have hdollar : Token.scan ("$" ++ name) = .ok [⟨.symbol .dollar, 0⟩,
      ⟨Lexeme.ofWord name.toList, 1⟩, ⟨.finish, 1 + name.toList.length⟩] :=
    Token.scan_sigil (c := '$') rfl rfl hname
  have hbang : Token.scan ("!" ++ name) = .ok [⟨.symbol .bang, 0⟩,
      ⟨Lexeme.ofWord name.toList, 1⟩, ⟨.finish, 1 + name.toList.length⟩] :=
    Token.scan_sigil (c := '!') rfl (Lexeme.lexemeAt_bang (Text.head?_of_isName hname)) hname
  unfold Expr.ofText
  rw [hdollar, hbang]
  constructor
  · intro hfree
    have hword : Lexeme.ofWord name.toList = .name name := by
      refine Lexeme.ofWord_of_isFreeName (Bool.and_eq_true_iff.mpr ⟨hname, ?_⟩)
      rw [Bool.not_eq_true', Bool.eq_false_iff]
      exact fun hmem => hfree (List.contains_iff_mem.mp hmem)
    rw [hword]
    exact ⟨rfl, rfl⟩
  · intro hliteral
    -- the three words for literals are scanned as literals, and the sigil misses its name
    simp only [Lexeme.literalWords, List.mem_cons, List.not_mem_nil, or_false] at hliteral
    rcases hliteral with rfl | rfl | rfl <;> exact ⟨rfl, rfl⟩

/-- The word that marks a declaration of a type is a name as well. -/
theorem type_is_readable :
    FieldCheck.Lawful Fields.check ∧ Schema.Accepts Fields.check "type" ∧
      Declaration.Declares "type" ∧ "type" ∉ Lexeme.literalWords ∧
      Expr.ofText "$type" = .ok (.reference "type") ∧
      Expr.ofText "!type" = .ok (.action "type") := by
  have haccepted : Schema.Accepts Fields.check "type" :=
    ⟨[("version", .string "0.1"), ("definitions", .map [(Key.text "type", .string "$int")])],
      ⟨"0.1", [("type", "$int")]⟩, by decide +kernel, List.mem_singleton_self _⟩
  have hdeclared : Declaration.Declares "type" := ⟨"type type = $int".toList, _, rfl, rfl⟩
  have hfree : "type" ∉ Lexeme.literalWords := by decide
  exact ⟨Fields.check_lawful, haccepted, hdeclared, hfree,
    (definable_names_are_readable Fields.check_lawful (.inl haccepted)).1 hfree⟩

/-- A schema and a declaration define the word `null`, which no expression can refer to. -/
theorem null_is_definable_and_unreadable :
    (∀ check : FieldCheck, check.Lawful → Schema.Accepts check "null") ∧
      Fields.check Schema.scalarsToText Schema.checkNames [("version", .string "0.1"),
        ("definitions", .map [(Key.text "null", .string "1")])] = .ok ⟨"0.1", [("null", "1")]⟩ ∧
      Declaration.ofLine? "null = 1".toList = some ⟨false, "null", "1"⟩ ∧
      Expr.ofText "$null" = .error (.form (.missingName .dollar ⟨.null, 1⟩)) ∧
      Expr.ofText "!null" = .error (.form (.missingName .bang ⟨.null, 1⟩)) := by
  refine ⟨fun check lawful => ?_, by decide +kernel, rfl, rfl, rfl⟩
  exact (Schema.accepts_iff lawful).mpr rfl

end Sigil

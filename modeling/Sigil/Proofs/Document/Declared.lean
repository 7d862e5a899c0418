import Sigil.Proofs.Document.Declaration
import Sigil.Proofs.Document.Expression

/-!
# Declarations in a document

What a line declares does not depend on the blanks around it (`ofLine?_trim`). A document of
declarations and one line that is an expression holds the expression without the blanks around it,
and of each kind the declarations in turn (`ofText_of_written`).
-/

namespace Sigil

open Text (isBlank isLineEnd isNameChar trim trimStart)

namespace Declaration

/-! ## 1. Blanks around a declaration -/

theorem takeWhile_append_blank (cs : List Char) {after : List Char}
    (h : ∀ c ∈ after, isBlank c = true) :
    (cs ++ after).takeWhile isNameChar = cs.takeWhile isNameChar := by
  refine Text.takeWhile_append_of_endsAt cs fun c hc => ?_
  exact Lexeme.isNameChar_of_isBlank (h c (List.mem_of_mem_head? hc))

theorem named?_append_blank (isType : Bool) (cs : List Char) {after : List Char}
    (h : ∀ c ∈ after, isBlank c = true) : named? isType (cs ++ after) = named? isType cs := by
  have hdrop : (cs ++ after).drop (cs.takeWhile isNameChar).length =
      cs.drop (cs.takeWhile isNameChar).length ++ after :=
    List.drop_append_of_le_length (List.takeWhile_prefix _).length_le
  unfold named?
  dsimp only
  rw [takeWhile_append_blank cs h, hdrop, Text.trimStart_append_blank _ h]
  -- what decides is the character behind the name and the one after it, never the blanks at the end
  cases htrim : trimStart (cs.drop (cs.takeWhile isNameChar).length) with
  | nil => rfl
  | cons c rest =>
    have hhead : (rest ++ after).head? = some '=' ↔ rest.head? = some '=' := by
      cases rest with
      | cons d rest => exact Iff.rfl
      | nil =>
        refine ⟨fun hafter => ?_, fun hnone => by cases hnone⟩
        have hequal := h '=' (List.mem_of_head? hafter)
        cases hequal
    rw [if_neg (List.cons_ne_nil c rest)]
    by_cases hequal : c = '='
    · subst hequal
      simp only [List.cons_append, Text.trim_append_blank rest h, hhead]
    · split
      · -- behind the name no equals sign follows
        split
        · next heq => exact absurd (List.cons.inj heq).1 hequal
        · split
          · next heq => exact absurd (List.cons.inj heq).1 hequal
          · rfl
      · rfl

theorem afterTypeWord?_append_blank (cs : List Char) {after : List Char}
    (h : ∀ c ∈ after, isBlank c = true) :
    afterTypeWord? (cs ++ after) = (afterTypeWord? cs).map (· ++ after) := by
  -- the word itself has no blank in it, so it stands in the one text if it stands in the other
  by_cases hword : ∃ rest, cs = "type".toList ++ rest
  · obtain ⟨rest, rfl⟩ := hword
    rw [List.append_assoc, afterTypeWord?_type, afterTypeWord?_type,
      Text.trimStart_append_blank rest h]
    cases htrim : trimStart rest with
    | nil => rfl
    | cons c tail =>
      have hlength : (tail ++ after).length + 1 < (rest ++ after).length ↔
          tail.length + 1 < rest.length := by
        rw [List.length_append, List.length_append]
        omega
      rw [if_neg (List.cons_ne_nil c tail)]
      simp only [List.cons_append, hlength]
      split <;> rfl
  · have hnot : ∀ ds, (¬ ∃ rest, ds = "type".toList ++ rest) → afterTypeWord? ds = none := by
      intro ds hds
      unfold afterTypeWord?
      split
      · next rest => exact absurd ⟨rest, rfl⟩ hds
      · rfl
    rw [hnot cs hword]
    refine hnot _ ?_
    rintro ⟨rest, hrest⟩
    rcases List.append_eq_append_iff.mp hrest with ⟨more, htype, hafter⟩ | ⟨more, hcs, -⟩
    · -- the word cannot go on in the blanks
      cases more with
      | nil => exact hword ⟨[], by rw [List.append_nil, htype, List.append_nil]⟩
      | cons c more =>
        have hblank := h c (hafter ▸ List.mem_cons_self)
        have hsolid : ∀ d ∈ "type".toList, isBlank d = false := Text.forall_of_any_eq_false rfl
        rw [hsolid c (htype ▸ List.mem_append_right _ List.mem_cons_self)] at hblank
        cases hblank
    · exact hword ⟨more, hcs⟩

/-- **A line declares what it declares without the blanks around it.** -/
theorem ofLine?_trim (line : List Char) : ofLine? (trim line) = ofLine? line := by
  obtain ⟨after, hstart, hafter⟩ := Text.exists_trimStart line
  have htrim : trimStart (trim line) = trim line := by
    cases hcore : trim line with
    | nil => rfl
    | cons c core =>
      have hhead : (trimStart line).head? = some c := by
        rw [← Text.head?_trim, hcore]
        rfl
      have hsolid := List.head?_dropWhile_not isBlank line
      unfold trimStart at hhead
      rw [hhead] at hsolid
      exact List.dropWhile_cons_of_neg (Bool.eq_false_iff.mp hsolid)
  unfold ofLine?
  dsimp only
  rw [htrim, hstart, afterTypeWord?_append_blank _ hafter, named?_append_blank _ _ hafter]
  cases afterTypeWord? (trim line) with
  | none => rfl
  | some rest => exact (named?_append_blank true rest hafter).symm

theorem ofLine?_trimmed (line : String) :
    ofLine? (Text.trimmed line).toList = ofLine? line.toList := by
  unfold Text.trimmed
  rw [String.toList_ofList, ofLine?_trim]

/-- A single line that declares this, with a text. -/
structure IsWritten (line : String) (d : Declaration) : Prop where
  within : ∀ c ∈ line.toList, isLineEnd c = false
  read : ofLine? line.toList = some d
  text : d.text ≠ ""

/-- A declaration as an entry of a registry. -/
def entry (d : Declaration) : String × String := (d.name, d.text)

/-- The declarations of user types, or the others. -/
def ofKind (isType : Bool) (ds : List Declaration) : List Declaration :=
  ds.filter fun d => d.isType == isType

/-- Without the blanks around it, a declaration starts with a letter. -/
theorem exists_letter_of_ofLine? {line : List Char} {d : Declaration} (h : ofLine? line = some d) :
    ∃ c, (trim line).head? = some c ∧ Text.isLetter c = true := by
  obtain ⟨hword, hname⟩ := firstWord_of_ofLine? h
  rw [Text.head?_trim]
  cases hline : trimStart line with
  | nil =>
    rw [hline] at hword
    rw [← hword] at hname
    cases hname
  | cons c cs =>
    rw [hline] at hword
    exact ⟨c, rfl, Token.isLetter_of_isName_takeWhile (hword ▸ hname)⟩

theorem IsWritten.ofText {line : String} {d : Declaration} (h : IsWritten line d) :
    Document.Line.ofText line.toList = .declaration d := by
  obtain ⟨c, hhead, hletter⟩ := exists_letter_of_ofLine? h.read
  have hsolid : (trim line.toList).isEmpty = false := by
    rw [List.isEmpty_eq_false_iff]
    intro hnil
    rw [hnil] at hhead
    cases hhead
  have hcomment : (some c == some '#') = false := by
    refine beq_false_of_ne fun heq => ?_
    rw [Option.some.inj heq] at hletter
    cases hletter
  unfold Document.Line.ofText
  dsimp only
  rw [hhead, hsolid, hcomment, Bool.or_false, if_neg Bool.false_ne_true, h.read]

end Declaration

/-! ## 2. An expression on a line -/

namespace Expr

/-- A single line that is read as this expression, and no declaration. -/
structure IsWritten (line : String) (e : Expr) : Prop where
  within : ∀ c ∈ line.toList, isLineEnd c = false
  undeclared : Declaration.ofLine? line.toList = none
  read : ofText line = .ok e

/-- The blanks around an expression do not count. -/
theorem IsWritten.trimmed {line : String} {e : Expr} (h : IsWritten line e) :
    ofText (Text.trimmed line) = .ok e := by
  obtain ⟨before, after, hline, hbefore, hafter⟩ := Text.exists_trim line.toList
  have hkept : Text.Respaced (trim line.toList ++ after) (trim line.toList ++ []) :=
    .of_within (fun c hc => h.within c (Text.mem_of_mem_trim hc)) (.finish hafter)
  rw [List.append_nil] at hkept
  exact (ofText_respaced_iff hline hbefore hkept h.read).mpr (Token.breaksLine_of_within h.within)

theorem IsWritten.solid {line : String} {e : Expr} (h : IsWritten line e) : trim line.toList ≠ [] :=
  fun hnone => ofText_of_blank (Text.isBlank_of_trim_eq_nil hnone) e h.read

/-- No expression starts like a comment. -/
theorem IsWritten.no_comment {line : String} {e : Expr} (h : IsWritten line e) :
    (trim line.toList).head? ≠ some '#' := by
  intro hcomment
  obtain ⟨cs, hcs⟩ := List.head?_eq_some_iff.mp hcomment
  obtain ⟨xs, hlexes, -⟩ := ofText_eq_ok_iff_lexes.mp h.trimmed
  unfold Text.trimmed at hlexes
  rw [String.toList_ofList, hcs] at hlexes
  cases hlexes with
  | blank blank _ => cases blank
  | lexeme _ found _ => cases found

theorem IsWritten.isPlain {line : String} {e : Expr} (h : IsWritten line e) :
    Document.IsPlain line.toList := ⟨h.undeclared, h.no_comment⟩

end Expr

/-! ## 3. Declarations and an expression -/

namespace Document

open Declaration (entry ofKind)

theorem declared_append (isType : Bool) (reads reads' : List Line) :
    declared isType (reads ++ reads') = declared isType reads ++ declared isType reads' :=
  List.filterMap_append

theorem declared_of_declarations (isType : Bool) (ds : List Declaration) :
    declared isType (ds.map .declaration) = (ofKind isType ds).map entry := by
  induction ds with
  | nil => rfl
  | cons d ds ih =>
    have hd : declared isType [.declaration d] = (ofKind isType [d]).map entry := by
      by_cases hkind : d.isType = isType
      · simp [declared, ofKind, entry, hkind]
      · simp [declared, ofKind, hkind]
    have hsplit : ofKind isType (d :: ds) = ofKind isType [d] ++ ofKind isType ds :=
      List.filter_append [d] ds
    rw [List.map_cons, hsplit, List.map_append, ← hd, ← ih]
    exact declared_append isType [.declaration d] _

theorem expressionLines_of_declarations (ds : List Declaration) (reads : List Line) :
    expressionLines (ds.map .declaration ++ reads) = expressionLines reads := by
  induction ds with
  | nil => rfl
  | cons d ds ih => exact ih

variable {lines : List String} {ds : List Declaration} {text : String} {e : Expr}

/-- Lines that are joined by line feeds are the lines of the text. -/
theorem lines_of_written (declared : List.Forall₂ Declaration.IsWritten lines ds)
    (expression : e.IsWritten text) :
    Text.lines ("\n".intercalate (lines ++ [text])).toList =
      lines.map String.toList ++ [text.toList] := by
  have hnonempty : text.toList ≠ [] := by
    intro hnil
    refine expression.solid ?_
    rw [hnil]
    rfl
  have hwithin : ∀ line ∈ lines.map String.toList ++ [text.toList], ∀ c ∈
      line, isLineEnd c = false := by
    intro line hline
    rcases List.mem_append.mp hline with hline | hline
    · obtain ⟨l, hl, rfl⟩ := List.mem_map.mp hline
      obtain ⟨d, -, hd⟩ := forall_mem_of_forall₂ declared.flip l hl
      exact Declaration.IsWritten.within hd
    · rw [List.mem_singleton.mp hline]
      exact expression.within
  rw [String.toList_intercalate, List.map_append]
  exact Text.lines_intercalate hwithin hnonempty

/-- Each line is read as what it is. -/
theorem readLines_of_written (declared : List.Forall₂ Declaration.IsWritten lines ds)
    (expression : e.IsWritten text) :
    readLines 1 (lines.map String.toList ++ [text.toList]) =
      .ok (ds.map .declaration ++ [.expression (trim text.toList)]) := by
  have hexpression : Line.ofText text.toList = .expression (trim text.toList) := by
    rw [Line.ofText_of_isPlain expression.isPlain, if_neg]
    exact fun hempty => expression.solid (List.isEmpty_iff.mp hempty)
  have hdeclared : (lines.map String.toList).map Line.ofText = ds.map .declaration := by
    rw [List.map_map]
    exact List.forall₂_eq_eq_eq ▸ List.forall₂_map_left_iff.mpr
      (List.forall₂_map_right_iff.mpr (declared.imp fun _ _ h => h.ofText))
  rw [readLines_of_texts, List.map_append, hdeclared, List.map_singleton, hexpression]
  intro line hline d hd
  rcases List.mem_append.mp hline with hline | hline
  · obtain ⟨l, hl, rfl⟩ := List.mem_map.mp hline
    obtain ⟨d', -, hd'⟩ := forall_mem_of_forall₂ declared.flip l hl
    cases (Declaration.IsWritten.ofText hd').symm.trans hd
    exact Declaration.IsWritten.text hd'
  · rw [List.mem_singleton.mp hline, hexpression] at hd
    cases hd

/-- **A document of declarations and one line that is an expression** holds this expression, and of
    each kind the declarations in turn. -/
theorem ofText_of_written (declared : List.Forall₂ Declaration.IsWritten lines ds)
    (expression : e.IsWritten text) :
    ofText ("\n".intercalate (lines ++ [text])) =
      .ok ⟨Text.trimmed text, Entries.putAll ((ofKind false ds).map entry) [],
        Entries.putAll ((ofKind true ds).map entry) []⟩ := by
  have hdeclared (isType : Bool) :
      Document.declared isType (ds.map .declaration ++ [.expression (trim text.toList)]) =
        (ofKind isType ds).map entry := by
    rw [declared_append, declared_of_declarations]
    exact List.append_nil _
  unfold ofText
  rw [lines_of_written declared expression, readLines_of_written declared expression]
  show (if _ then _ else _) = _
  rw [expressionLines_of_declarations, hdeclared, hdeclared]
  rfl

end Document

end Sigil

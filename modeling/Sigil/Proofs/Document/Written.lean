import Sigil.Proofs.Document.Declared
import Sigil.Proofs.Registry.Merge

/-!
# Documents read as they were written

A document is written as a list of items: declarations, lines of the expression, blank lines and
comments, in any order. Each item is read again from its line as what it is
(`Item.ofText_written`), so the document holds the lines of the expression, joined by single
spaces, and of either kind of declaration the table of names and texts; without any line of the
expression it is refused (`ofText_write`).
-/

namespace Sigil

open Text (isBlank isLineEnd trim)

/-! ## 1. Phrases -/

/-- A text as it stands on a line: not empty, no blanks around it, no line end in it. -/
structure Text.Phrase where
  text : String
  nonempty : text ≠ ""
  trimmed : Text.trimmed text = text
  within : ∀ c ∈ text.toList, isLineEnd c = false

namespace Text.Phrase

variable (p : Phrase)

theorem trim_toList : trim p.text.toList = p.text.toList := by
  have htrimmed := congrArg String.toList p.trimmed
  rwa [Text.trimmed, String.toList_ofList] at htrimmed

theorem toList_ne_nil : p.text.toList ≠ [] :=
  fun hnil => p.nonempty (String.toList_eq_nil_iff.mp hnil)

/-- A blank in front of a phrase is trimmed away. -/
theorem trim_space : trim (' ' :: p.text.toList) = p.text.toList := by
  conv => rhs; rw [← p.trim_toList]
  rfl

theorem no_feed : '\n' ∉ p.text.toList := by
  intro hmem
  cases p.within '\n' hmem

end Text.Phrase

/-- No name holds a line end. -/
theorem Text.within_of_isName {name : List Char} (h : isName name = true) :
    ∀ c ∈ name, isLineEnd c = false := by
  intro c hc
  refine Bool.eq_false_iff.mpr fun hend => ?_
  have hname := (Declaration.solid_of_isName h).1 c hc
  rw [Lexeme.isNameChar_of_isBlank (isBlank_of_isLineEnd hend)] at hname
  cases hname

namespace Document

/-! ## 2. Items -/

/-- An item of a document, on a line of its own. -/
inductive Item where
  | declaration (isType : Bool) (name : String) (text : Text.Phrase)
    (isName : Text.isName name.toList = true)
  /-- A line of the expression. -/
  | expression (text : Text.Phrase) (noComment : text.text.toList.head? ≠ some '#')
    (undeclared : Declaration.ofLine? text.text.toList = none)
  | blank (text : String) (within : ∀ c ∈ text.toList, isLineEnd c = false)
    (blank : ∀ c ∈ text.toList, isBlank c = true)
  | comment (text : String) (within : ∀ c ∈ text.toList, isLineEnd c = false)
    (sign : (trim text.toList).head? = some '#')

namespace Item

/-- The line that the item is written on. -/
def written : Item → String
  | declaration false name text _ => name ++ " = " ++ text.text
  | declaration true name text _ => "type " ++ name ++ " = " ++ text.text
  | expression text _ _ => text.text
  | blank text _ _ => text
  | comment text _ _ => text

/-- What that line is read as. -/
def read : Item → Line
  | declaration isType name text _ => .declaration ⟨isType, name, text.text⟩
  | expression text _ _ => .expression text.text.toList
  | blank _ _ _ => .skipped
  | comment _ _ _ => .skipped

/-- The text of a line of the expression. -/
def text? : Item → Option String
  | expression text _ _ => some text.text
  | _ => none

/-- The name and the text of a declaration of the given kind. -/
def pair? (isType : Bool) : Item → Option (String × String)
  | declaration kind name text _ => if kind = isType then some (name, text.text) else none
  | _ => none

/-- The characters of a declaration that is no user type. -/
theorem toList_written (name : String) (text : Text.Phrase) :
    (name ++ " = " ++ text.text).toList =
      name.toList ++ ([' '] ++ '=' :: ' ' :: text.text.toList) := by
  rw [String.toList_append, String.toList_append, List.append_assoc]
  rfl

theorem toList_type_written (name : String) (text : Text.Phrase) :
    ("type " ++ name ++ " = " ++ text.text).toList =
      "type".toList ++ ([' '] ++ (name ++ " = " ++ text.text).toList) := by
  simp only [String.toList_append, List.append_assoc]
  rfl

/-- **A written declaration is that declaration**, whatever its name and its text. -/
theorem isWritten_declaration (isType : Bool) {name : String} (text : Text.Phrase)
    (isName : Text.isName name.toList = true) :
    Declaration.IsWritten (declaration isType name text isName).written
      ⟨isType, name, text.text⟩ := by
  -- the line is read back by the laws of declarations, which ask for these four facts
  have hspace : ∀ c ∈ [' '], isBlank c = true := List.forall_mem_singleton.mpr rfl
  have hsingle : (' ' :: text.text.toList).head? ≠ some '=' := by
    intro hequal
    cases hequal
  have hflat : '\n' ∉ trim (' ' :: text.text.toList) := by
    rw [text.trim_space]
    exact text.no_feed
  have hline : ∀ c ∈ (name ++ " = " ++ text.text).toList, isLineEnd c = false := by
    rw [String.toList_append, String.toList_append]
    exact List.forall_mem_append.mpr ⟨List.forall_mem_append.mpr
      ⟨Text.within_of_isName isName, Text.forall_of_any_eq_false rfl⟩, text.within⟩
  cases isType with
  | false =>
    have hread := Declaration.ofLine?_written isName hspace hsingle hflat
    rw [text.trim_space, String.ofList_toList, String.ofList_toList, ← toList_written] at hread
    exact ⟨hline, hread, text.nonempty⟩
  | true =>
    have hread :=
      Declaration.ofLine?_type_written hspace (List.cons_ne_nil _ _) isName hspace hsingle hflat
    rw [text.trim_space, String.ofList_toList, String.ofList_toList, ← toList_written,
      ← toList_type_written] at hread
    refine ⟨?_, hread, text.nonempty⟩
    show ∀ c ∈ ("type " ++ name ++ " = " ++ text.text).toList, _
    rw [toList_type_written]
    exact List.forall_mem_append.mpr ⟨Text.forall_of_any_eq_false rfl,
      List.forall_mem_append.mpr ⟨List.forall_mem_singleton.mpr rfl, hline⟩⟩

/-- **The line of an item is read as the item.** -/
theorem ofText_written (item : Item) : Line.ofText item.written.toList = item.read := by
  cases item with
  | declaration isType name text isName => exact (isWritten_declaration isType text isName).ofText
  | expression text noComment undeclared =>
    have hplain : IsPlain text.text.toList := ⟨undeclared, text.trim_toList.symm ▸ noComment⟩
    have hread := Line.ofText_of_isPlain hplain
    rw [text.trim_toList, if_neg fun hempty =>
      text.toList_ne_nil (List.isEmpty_iff.mp hempty)] at hread
    exact hread
  | blank text within blank =>
    have hnone : trim text.toList = [] := Text.trim_append_blank [] blank
    exact if_pos (Bool.or_eq_true_iff.mpr (.inl (List.isEmpty_iff.mpr hnone)))
  | comment text within sign => exact if_pos (Bool.or_eq_true_iff.mpr (.inr (beq_iff_eq.mpr sign)))

theorem text_ne_empty {d : Declaration} (item : Item) (h : item.read = .declaration d) :
    d.text ≠ "" := by
  cases item with
  | declaration isType name text isName =>
    cases h
    exact text.nonempty
  | expression | blank | comment => cases h

theorem within (item : Item) : ∀ c ∈ item.written.toList, isLineEnd c = false := by
  cases item with
  | declaration isType name text isName => exact (isWritten_declaration isType text isName).within
  | expression text => exact text.within
  | blank text within => exact within
  | comment text within => exact within

end Item

/-! ## 3. Documents -/

/-- The document that the items are written as. -/
def write (items : List Item) : String := "\n".intercalate (items.map Item.written)

/-- The lines of the expression, in turn. -/
def texts (items : List Item) : List String := items.filterMap Item.text?

/-- The declarations of one kind, in turn. -/
def pairs (isType : Bool) (items : List Item) : List (String × String) :=
  items.filterMap (Item.pair? isType)

theorem expressionLines_read (items : List Item) :
    expressionLines (items.map Item.read) = texts items := by
  unfold expressionLines texts
  rw [List.filterMap_map]
  refine List.filterMap_congr fun item _ => ?_
  cases item with
  | expression text => exact congrArg some String.ofList_toList
  | declaration | blank | comment => rfl

theorem declared_read (isType : Bool) (items : List Item) :
    declared isType (items.map Item.read) = pairs isType items := by
  unfold declared pairs
  rw [List.filterMap_map]
  exact List.filterMap_congr fun item _ => by cases item <;> rfl

/-- The lines of a written document are those of its items, but for an empty one at the end. -/
theorem exists_lines_write (items : List Item) :
    ∃ front rest, items = front ++ rest ∧
      Text.lines (write items).toList = front.map (fun item => item.written.toList) ∧
      ∀ item ∈ rest, item.read = .skipped := by
  -- only the last line can get lost: it is none if nothing stands on it
  rcases List.eq_nil_or_concat' items with rfl | ⟨front, item, rfl⟩
  · exact ⟨[], [], rfl, rfl, List.forall_mem_nil _⟩
  · have hwithin : ∀ line ∈ front.map (fun item => item.written.toList), ∀ c ∈
        line, isLineEnd c = false := by
      intro line hline
      obtain ⟨other, -, rfl⟩ := List.mem_map.mp hline
      exact other.within
    have hlines : Text.lines (write (front ++ [item])).toList =
        front.map (fun item => item.written.toList) ++ Text.lines item.written.toList := by
      unfold write
      rw [String.toList_intercalate, List.map_map, List.map_append]
      exact Text.lines_intercalate_concat _ hwithin
    by_cases hempty : item.written.toList = []
    · -- an empty line at the end is none, and counts for nothing
      have hread := item.ofText_written
      rw [hempty] at hlines hread
      exact ⟨front, [item], rfl, hlines.trans (List.append_nil _),
        List.forall_mem_singleton.mpr hread.symm⟩
    · rw [Text.lines_last item.within hempty] at hlines
      refine ⟨front ++ [item], [], (List.append_nil _).symm, ?_, List.forall_mem_nil _⟩
      rw [hlines, List.map_append]
      rfl

/-- Skipped lines at the end count for nothing, whatever is picked from the lines. -/
theorem filterMap_read {α : Type} {pick : Line → Option α} (hpick : pick .skipped = none)
    (front : List Item) {rest : List Item} (h : ∀ item ∈ rest, item.read = .skipped) :
    ((front ++ rest).map Item.read).filterMap pick = (front.map Item.read).filterMap pick := by
  have hrest : (rest.map Item.read).filterMap pick = [] := by
    refine List.filterMap_eq_nil_iff.mpr fun read hread => ?_
    obtain ⟨item, hitem, rfl⟩ := List.mem_map.mp hread
    rw [h item hitem, hpick]
  rw [List.map_append, List.filterMap_append, hrest, List.append_nil]

/-- **A written document is read as its items**, but for skipped ones at the end. -/
theorem exists_readLines_write (items : List Item) :
    ∃ reads, readLines 1 (Text.lines (write items).toList) = .ok reads ∧
      expressionLines reads = texts items ∧
        ∀ isType, declared isType reads = pairs isType items := by
  obtain ⟨front, rest, rfl, hlines, hrest⟩ := exists_lines_write items
  refine ⟨front.map Item.read, ?_, ?_, fun isType => ?_⟩
  · have hread : (front.map fun item => item.written.toList).map Line.ofText =
        front.map Item.read := by
      rw [List.map_map]
      exact List.map_congr_left fun item _ => item.ofText_written
    rw [hlines, readLines_of_texts, hread]
    intro line hline d hd
    obtain ⟨item, -, rfl⟩ := List.mem_map.mp hline
    exact item.text_ne_empty (item.ofText_written.symm.trans hd)
  · rw [← expressionLines_read]
    exact (filterMap_read rfl front hrest).symm
  · rw [← declared_read]
    exact (filterMap_read rfl front hrest).symm

/-- What a written document is read as. -/
theorem ofText_write_eq (items : List Item) :
    ofText (write items) =
      if texts items = [] then .error .noExpression
      else .ok ⟨" ".intercalate (texts items), Entries.putAll (pairs false items) [],
        Entries.putAll (pairs true items) []⟩ := by
  obtain ⟨reads, hreads, htexts, hpairs⟩ := exists_readLines_write items
  unfold ofText
  rw [hreads, ← htexts, ← hpairs, ← hpairs]
  show (if _ then _ else _) = _
  by_cases hnone : expressionLines reads = []
  · rw [if_pos hnone, hnone]
    rfl
  · rw [if_neg hnone, if_neg fun hempty => hnone (List.isEmpty_iff.mp hempty)]
    rfl

/-- What a document holds that is written as these items: the lines of the expression,
    joined by single spaces, and for either kind of declaration each name once, as first
    mentioned, with its last text. -/
structure Holds (items : List Item) (d : Document) : Prop where
  expression : d.expression = " ".intercalate (texts items)
  inline : Entries.IsTable (pairs false items) d.inline
  userTypes : Entries.IsTable (pairs true items) d.userTypes

/-- **Reading a document undoes writing it**: what it holds is what its items say, and it is refused
    just where none of them is a line of the expression. -/
theorem ofText_write (items : List Item) :
    ((∃ error, ofText (write items) = .error error) ↔ texts items = []) ∧
      (texts items ≠ [] → ∃ d, ofText (write items) = .ok d ∧ Holds items d) := by
  have hread := ofText_write_eq items
  by_cases hnone : texts items = []
  · rw [if_pos hnone] at hread
    exact ⟨iff_of_true ⟨_, hread⟩ hnone, fun hsome => absurd hnone hsome⟩
  · rw [if_neg hnone] at hread
    refine ⟨iff_of_false ?_ hnone, fun _ =>
      ⟨_, hread, rfl, Entries.isTable_putAll _, Entries.isTable_putAll _⟩⟩
    rintro ⟨error, herror⟩
    rw [hread] at herror
    cases herror

/-- Between comments and blank lines, `type` is a name of either kind, defined twice
    in one of them. -/
theorem ofText_write_of_type :
    let one : Text.Phrase := ⟨"1", by decide, rfl, Text.forall_of_any_eq_false rfl⟩
    let equals : Text.Phrase := ⟨"= $b", by decide, rfl, Text.forall_of_any_eq_false rfl⟩
    let start : Text.Phrase := ⟨"[$type,", by decide, rfl, Text.forall_of_any_eq_false rfl⟩
    let two : Text.Phrase := ⟨"2", by decide, rfl, Text.forall_of_any_eq_false rfl⟩
    let finish : Text.Phrase := ⟨"$b]", by decide, rfl, Text.forall_of_any_eq_false rfl⟩
    let items : List Item := [
      .declaration false "type" one rfl,
      .comment " # a name like any other" (Text.forall_of_any_eq_false rfl) rfl,
      .declaration true "type" equals rfl,
      .expression start (by decide) (by decide),
      .declaration false "type" two rfl,
      .expression finish (by decide) (by decide),
      .blank "" (List.forall_mem_nil _) (List.forall_mem_nil _)]
    write items =
        "type = 1\n # a name like any other\ntype type = = $b\n[$type,\ntype = 2\n$b]\n" ∧
      texts items ≠ [] ∧ ∃ d, ofText (write items) = .ok d ∧ Holds items d := by
  intro one equals start two finish items
  have hsome : texts items ≠ [] := List.cons_ne_nil _ _
  exact ⟨by decide +kernel, hsome, (ofText_write items).2 hsome⟩

end Document

end Sigil

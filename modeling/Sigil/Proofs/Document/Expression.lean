import Sigil.Document.Basic
import Sigil.Proofs.Expr.LineEnds
import Sigil.Proofs.Text.Lines

/-!
# The expression of a document

A document whose lines are all lines of its expression holds them trimmed and joined by single
spaces. That is the text respaced, so the expression is still read as the same tree, unless one of
its strings goes over a line end: such a string loses the line end (`document_keeps_expression`).
-/

namespace Sigil

open Text (isBlank trim solidLines joined)

namespace Document

/-! ## 1. Reading lines -/

/-- Where each declaration has a text, the lines are read one by one. -/
theorem readLines_of_texts {lines : List (List Char)}
    (h : ∀ line ∈ lines, ∀ d, Line.ofText line = .declaration d → d.text ≠ "") (number : Nat) :
    readLines number lines = .ok (lines.map Line.ofText) := by
  induction lines generalizing number with
  | nil => rfl
  | cons line lines ih =>
    obtain ⟨hline, hlines⟩ := List.forall_mem_cons.mp h
    have hrest := ih hlines (number + 1)
    unfold readLines
    dsimp only
    split
    · next d hd =>
      rw [String.isEmpty_eq_false_iff.mpr (hline d hd), hrest]
      rfl
    · rw [hrest]
      rfl

/-- A line of the expression: no declaration, and no comment. -/
def IsPlain (line : List Char) : Prop :=
  Declaration.ofLine? line = none ∧ (trim line).head? ≠ some '#'

theorem Line.ofText_of_isPlain {line : List Char} (h : IsPlain line) :
    Line.ofText line = if (trim line).isEmpty then .skipped else .expression (trim line) := by
  have hhead : ((trim line).head? == some '#') = false := beq_false_of_ne h.2
  unfold Line.ofText
  dsimp only
  rw [hhead, Bool.or_false, h.1]

theorem declared_of_plain {lines : List (List Char)} (h : ∀ line ∈ lines, IsPlain line)
    (isType : Bool) :
    declared isType (lines.map Line.ofText) = [] := by
  refine List.filterMap_eq_nil_iff.mpr fun read hread => ?_
  obtain ⟨line, hline, rfl⟩ := List.mem_map.mp hread
  rw [Line.ofText_of_isPlain (h line hline)]
  by_cases hblank : (trim line).isEmpty
  · rw [if_pos hblank]
  · rw [if_neg hblank]

theorem expressionLines_of_plain {lines : List (List Char)} (h : ∀ line ∈ lines, IsPlain line) :
    expressionLines (lines.map Line.ofText) = (solidLines lines).map String.ofList := by
  induction lines with
  | nil => rfl
  | cons line lines ih =>
    obtain ⟨hline, hlines⟩ := List.forall_mem_cons.mp h
    have hread := Line.ofText_of_isPlain hline
    have hrest := ih hlines
    unfold expressionLines at hrest ⊢
    by_cases hblank : trim line = []
    · rw [hblank, List.isEmpty_nil, if_pos rfl] at hread
      rw [Text.solidLines_cons_blank hblank, List.map_cons, hread]
      exact hrest
    · rw [if_neg fun hempty => hblank (List.isEmpty_iff.mp hempty)] at hread
      rw [Text.solidLines_cons_solid hblank, List.map_cons, hread]
      exact congrArg _ hrest

/-- The lines of an expression, none of which is a declaration, are a document. -/
theorem ofText_of_plain {s : String} (plain : ∀ line ∈ Text.lines s.toList, IsPlain line)
    (solid : solidLines (Text.lines s.toList) ≠ []) :
    ofText s = .ok ⟨String.ofList (joined (Text.lines s.toList)), [], []⟩ := by
  have hread : readLines 1 (Text.lines s.toList) = .ok ((Text.lines s.toList).map Line.ofText) := by
    refine readLines_of_texts (fun line hline d hd => ?_) 1
    rw [Line.ofText_of_isPlain (plain line hline)] at hd
    split at hd <;> cases hd
  have hsome : ((solidLines (Text.lines s.toList)).map String.ofList).isEmpty = false := by
    rw [List.isEmpty_eq_false_iff]
    exact fun hnil => solid (List.map_eq_nil_iff.mp hnil)
  have hjoined : " ".intercalate ((solidLines (Text.lines s.toList)).map String.ofList) =
      String.ofList (joined (Text.lines s.toList)) := by
    refine String.toList_inj.mp ?_
    have hid : String.toList ∘ String.ofList = id := funext fun _ => String.toList_ofList
    rw [String.toList_intercalate, List.map_map, hid, List.map_id,
      @String.toList_ofList (joined _)]
    rfl
  unfold ofText
  rw [hread]
  show (if _ then _ else _) = _
  rw [expressionLines_of_plain plain, hsome, hjoined, declared_of_plain plain,
    declared_of_plain plain]
  rfl

end Document

/-! ## 2. Reading the expression -/

namespace Expr

open Token (Lexes breaksFrom)

/-- Nothing is read from blanks. -/
theorem ofText_of_blank {s : String} (h : ∀ c ∈ s.toList, isBlank c = true) (e : Expr) :
    ofText s ≠ .ok e := by
  intro hread
  obtain ⟨xs, hlexes, htree⟩ := ofText_eq_ok_iff_lexes.mp hread
  have hsplit : s.toList = s.toList ++ [] := (List.append_nil _).symm
  rw [hsplit, Token.lexes_gap_iff h] at hlexes
  rw [hlexes.unique .nil] at htree
  cases htree

/-- **A respaced text is read as the same tree**, unless a string goes over a line end: then it is
    read as another tree or not at all. -/
theorem ofText_respaced_iff {s : String} {before rest ds : List Char} {e : Expr}
    (hs : s.toList = before ++ rest) (hbefore : ∀ c ∈ before, isBlank c = true)
    (hr : Text.Respaced rest ds) (h : ofText s = .ok e) :
    ofText (String.ofList ds) = .ok e ↔ Token.breaksLine s = false := by
  obtain ⟨xs, hlexes, htree⟩ := ofText_eq_ok_iff_lexes.mp h
  have hbreaks : Token.breaksLine s = breaksFrom 0 rest := by
    unfold Token.breaksLine
    rw [hs, Token.breaksFrom_gap hbefore]
  rw [hs, Token.lexes_gap_iff hbefore] at hlexes
  obtain ⟨ys, hys, hcases⟩ := hlexes.respaced hr
  rw [hbreaks]
  constructor
  · intro h'
    rcases hcases with ⟨hwithin, -⟩ | ⟨-, hfewer⟩
    · exact hwithin
    · obtain ⟨zs, hzs, htree'⟩ := ofText_eq_ok_iff_lexes.mp h'
      rw [String.toList_ofList] at hzs
      cases hzs.unique hys
      -- both words spell the tree, so both hold its line ends
      obtain ⟨d, hxs⟩ := spells_of_lexes hlexes htree
      obtain ⟨d', hys'⟩ := spells_of_lexes hys htree'
      rw [hxs.lineEnds_eq, hys'.lineEnds_eq] at hfewer
      exact absurd hfewer (Nat.lt_irrefl _)
  · intro hwithin
    rcases hcases with ⟨-, rfl⟩ | ⟨hover, -⟩
    · exact ofText_eq_ok_iff_lexes.mpr ⟨ys, by rwa [String.toList_ofList], htree⟩
    · rw [hwithin] at hover
      cases hover

end Expr

/-- **Going through a document does not alter the expression**, if no string of it goes over a line
    end, and does alter it if one does. In any case the document declares nothing. -/
theorem document_keeps_expression {s : String} {e : Expr}
    (plain : ∀ line ∈ Text.lines s.toList,
      Declaration.ofLine? line = none ∧ (trim line).head? ≠ some '#')
    (h : Expr.ofText s = .ok e) :
    ∃ d, Document.ofText s = .ok d ∧ d.inline = [] ∧ d.userTypes = [] ∧
      (Expr.ofText d.expression = .ok e ↔ Token.breaksLine s = false) := by
  obtain ⟨before, rest, hs, hbefore, hrest⟩ := Text.respaced_joined (Text.cut_lines s.toList)
  have hsolid : solidLines (Text.lines s.toList) ≠ [] := by
    intro hnone
    unfold joined at hrest
    rw [hnone] at hrest
    refine Expr.ofText_of_blank (fun c hc => ?_) e h
    rw [hs] at hc
    exact (List.mem_append.mp hc).elim (hbefore c) (hrest.isBlank c)
  exact ⟨_, Document.ofText_of_plain plain hsolid, rfl, rfl,
    Expr.ofText_respaced_iff hs hbefore hrest h⟩

/-- A list over three lines, with a blank one and blanks at the ends. -/
theorem list_over_lines_is_kept :
    let s := " [$a,\t\n\u2003\r\n \"b\"]\n"
    let e : Expr := .array [.reference "a", .string "b"]
    (∀ line ∈ Text.lines s.toList,
        Declaration.ofLine? line = none ∧ (trim line).head? ≠ some '#') ∧
      Expr.ofText s = .ok e ∧ Token.breaksLine s = false ∧
      ∃ d, Document.ofText s = .ok d ∧ d.inline = [] ∧ d.userTypes = [] ∧
        Expr.ofText d.expression = .ok e := by
  intro s e
  have hplain : ∀ line ∈ Text.lines s.toList,
      Declaration.ofLine? line = none ∧ (trim line).head? ≠ some '#' := by decide +kernel
  have hread : Expr.ofText s = .ok e := by
    unfold s e
    rfl
  have hwithin : Token.breaksLine s = false := by decide +kernel
  obtain ⟨d, hd, hinline, htypes, hkept⟩ := document_keeps_expression hplain hread
  exact ⟨hplain, hread, hwithin, d, hd, hinline, htypes, hkept.mpr hwithin⟩

/-- A string over a line end has a space in its place. -/
theorem string_over_lines_is_altered :
    (∀ line ∈ Text.lines "\"a\nb\"".toList,
        Declaration.ofLine? line = none ∧ (trim line).head? ≠ some '#') ∧
      Expr.ofText "\"a\nb\"" = .ok (.string "a\nb") ∧
      Document.ofText "\"a\nb\"" = .ok ⟨"\"a b\"", [], []⟩ ∧
      Expr.ofText "\"a b\"" = .ok (.string "a b") ∧
        Expr.ofText "\"a b\"" ≠ .ok (.string "a\nb") := by
  have hread : Expr.ofText "\"a b\"" = .ok (.string "a b") := rfl
  refine ⟨by decide, rfl, rfl, hread, ?_⟩
  rw [hread]
  exact fun heq => absurd (Expr.string.inj (Except.ok.inj heq)) (by decide)

end Sigil

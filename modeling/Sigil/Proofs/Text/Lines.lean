import Mathlib.Data.List.TakeWhile
import Sigil.Proofs.Token.Respaced
import Sigil.Text.Blank

/-!
# Lines and the text they are cut from

Cutting a text at its line ends gives lines without any (`cut_lines`), and lines joined by line
feeds are cut again as they were (`lines_intercalate`). The trimmed lines, blank ones left out,
joined by single spaces, are the respaced text, but for blanks at its start (`respaced_joined`).
-/

namespace Sigil.Text

/-! ## 1. Trimming -/

/-- Blanks at the end stay, where only those in front are taken away and there is more
    than blanks. -/
theorem trimStart_append_blank (cs : List Char) {after : List Char}
    (h : ∀ c ∈ after, isBlank c = true) :
    trimStart (cs ++ after) = if trimStart cs = [] then [] else trimStart cs ++ after := by
  have hafter : after.dropWhile isBlank = [] := List.dropWhile_eq_nil_iff.mpr h
  unfold trimStart
  rw [List.dropWhile_append, hafter]
  simp only [List.isEmpty_iff]

theorem exists_trimStart (cs : List Char) :
    ∃ after, trimStart cs = trim cs ++ after ∧ ∀ c ∈ after, isBlank c = true := by
  refine ⟨((trimStart cs).reverse.takeWhile isBlank).reverse, ?_, fun c hc => ?_⟩
  · have hsplit := congrArg List.reverse
      (List.takeWhile_append_dropWhile (p := isBlank) (l := (trimStart cs).reverse))
    rw [List.reverse_append, List.reverse_reverse] at hsplit
    exact hsplit.symm
  · exact List.all_eq_true.mp List.all_takeWhile c (List.mem_reverse.mp hc)

/-- Trimming takes away blanks at either end. -/
theorem exists_trim (cs : List Char) :
    ∃ before after, cs = before ++ (trim cs ++ after) ∧ (∀ c ∈ before, isBlank c = true) ∧
      ∀ c ∈ after, isBlank c = true := by
  obtain ⟨after, hstart, hafter⟩ := exists_trimStart cs
  refine ⟨cs.takeWhile isBlank, after, ?_, List.all_eq_true.mp List.all_takeWhile, hafter⟩
  rw [← hstart]
  exact List.takeWhile_append_dropWhile.symm

theorem isBlank_of_trim_eq_nil {cs : List Char} (h : trim cs = []) :
    ∀ c ∈ cs, isBlank c = true := by
  obtain ⟨before, after, hcs, hbefore, hafter⟩ := exists_trim cs
  intro c hc
  rw [hcs, h, List.nil_append] at hc
  exact (List.mem_append.mp hc).elim (hbefore c) (hafter c)

theorem mem_of_mem_trim {cs : List Char} {c : Char} (h : c ∈ trim cs) : c ∈ cs := by
  obtain ⟨before, after, hcs, -, -⟩ := exists_trim cs
  rw [hcs]
  exact List.mem_append_right _ (List.mem_append_left _ h)

/-- A text without the blanks around it starts where it starts without those in front. -/
theorem head?_trim (cs : List Char) : (trim cs).head? = (trimStart cs).head? := by
  obtain ⟨after, hstart, hafter⟩ := exists_trimStart cs
  cases htrim : trim cs with
  | cons c core =>
    rw [hstart, htrim]
    rfl
  | nil =>
    have hnone : trimStart cs = [] := by
      unfold trimStart
      exact List.dropWhile_eq_nil_iff.mpr (isBlank_of_trim_eq_nil htrim)
    rw [hnone]

/-- Blanks at the end are trimmed away. -/
theorem trim_append_blank (cs : List Char) {after : List Char} (h : ∀ c ∈ after, isBlank c = true) :
    trim (cs ++ after) = trim cs := by
  have hend : ∀ ds, trimEnd (ds ++ after) = trimEnd ds := by
    intro ds
    unfold trimEnd
    rw [List.reverse_append, List.dropWhile_append_of_pos fun c hc => h c (List.mem_reverse.mp hc)]
  unfold trim
  rw [trimStart_append_blank cs h]
  split
  · next hnone => rw [hnone]
  · exact hend _

/-! ## 2. Cutting -/

/-- The text is cut into these lines: each without line ends, and line ends between them. -/
inductive Cut : List Char → List (List Char) → Prop where
  | nil : Cut [] []
  | last {line : List Char} (nonempty : line ≠ []) (within : ∀ c ∈ line, isLineEnd c = false) :
    Cut line [line]
  | line {line ending rest : List Char} {others : List (List Char)}
    (within : ∀ c ∈ line, isLineEnd c = false) (nonempty : ending ≠ [])
    (ends : ∀ c ∈ ending, isLineEnd c = true) (cut : Cut rest others) :
    Cut (line ++ (ending ++ rest)) (line :: others)

theorem Cut.cons {c : Char} {cs line : List Char} {others : List (List Char)}
    (hc : isLineEnd c = false)
    (h : Cut cs (line :: others)) : Cut (c :: cs) ((c :: line) :: others) := by
  cases h with
  | last nonempty within =>
    exact .last (List.cons_ne_nil _ _) (List.forall_mem_cons.mpr ⟨hc, within⟩)
  | line within nonempty ends cut =>
    exact .line (List.forall_mem_cons.mpr ⟨hc, within⟩) nonempty ends cut

/-- **A text is cut into its lines.** -/
theorem cut_lines (cs : List Char) : Cut cs (lines cs) := by
  -- on the splitting: a pair of return and newline is one end, and any other end is one character
  fun_induction lines cs with
  | case1 => exact .nil
  | case2 cs ih =>
    have hends : ∀ c ∈ ['\r', '\n'], isLineEnd c = true := List.all_eq_true.mp rfl
    exact @Cut.line [] ['\r', '\n'] cs _ (fun _ h => absurd h List.not_mem_nil)
      (List.cons_ne_nil _ _) hends
      ih
  | case3 c cs _ hend ih =>
    exact @Cut.line [] [c] cs _ (fun _ h => absurd h List.not_mem_nil) (List.cons_ne_nil _ _)
      (List.forall_mem_singleton.mpr hend) ih
  | case4 c cs _ hend hlines ih =>
    rw [hlines] at ih
    cases ih
    exact .last (List.cons_ne_nil _ _) (List.forall_mem_singleton.mpr (Bool.eq_false_iff.mpr hend))
  | case5 c cs _ hend line others hlines ih =>
    rw [hlines] at ih
    exact ih.cons (Bool.eq_false_iff.mpr hend)

theorem lines_cons {c : Char} (h : isLineEnd c = false) (cs : List Char) :
    lines (c :: cs) = match lines cs with
      | [] => [[c]]
      | line :: others => (c :: line) :: others := by
  rw [lines.eq_def]
  split
  · next heq => cases heq
  · next heq =>
    cases (List.cons.inj heq).1
    cases h
  · next heq =>
    obtain ⟨rfl, rfl⟩ := List.cons.inj heq
    exact if_neg (Bool.eq_false_iff.mp h)

/-- A line before a line feed is the first line. -/
theorem lines_line {line : List Char} (within : ∀ c ∈ line, isLineEnd c = false)
    (rest : List Char) :
    lines (line ++ '\n' :: rest) = line :: lines rest := by
  induction line with
  | nil => rfl
  | cons c line ih =>
    obtain ⟨hc, hline⟩ := List.forall_mem_cons.mp within
    rw [List.cons_append, lines_cons hc, ih hline]

/-- A text without line ends is a single line. -/
theorem lines_last {line : List Char} (within : ∀ c ∈ line, isLineEnd c = false)
    (nonempty : line ≠ []) :
    lines line = [line] := by
  induction line with
  | nil => exact absurd rfl nonempty
  | cons c line ih =>
    obtain ⟨hc, hline⟩ := List.forall_mem_cons.mp within
    rw [lines_cons hc]
    cases line with
    | nil => rfl
    | cons d line => rw [ih hline (List.cons_ne_nil _ _)]

/-- Lines in front of a line feed are cut as they were, and what follows the last line
    feed is cut on. -/
theorem lines_intercalate_concat {front : List (List Char)} (last : List Char)
    (within : ∀ line ∈ front, ∀ c ∈ line, isLineEnd c = false) :
    lines (['\n'].intercalate (front ++ [last])) = front ++ lines last := by
  induction front with
  | nil => rw [List.nil_append, List.intercalate_singleton, List.nil_append]
  | cons line front ih =>
    obtain ⟨hline, hfront⟩ := List.forall_mem_cons.mp within
    obtain ⟨second, others, hothers⟩ : ∃ second others, front ++ [last] = second :: others :=
      List.exists_cons_of_ne_nil (List.append_ne_nil_of_right_ne_nil _ (List.cons_ne_nil _ _))
    have hrest := ih hfront
    rw [hothers] at hrest
    rw [List.cons_append, hothers, List.intercalate_cons_cons, List.append_assoc]
    show lines (line ++ '\n' :: ['\n'].intercalate (second :: others)) = _
    rw [lines_line hline, hrest, List.cons_append]

/-- **Lines that are joined by line feeds are cut again as they were**, if the last
    one is not empty. -/
theorem lines_intercalate {front : List (List Char)} {last : List Char}
    (within : ∀ line ∈ front ++ [last], ∀ c ∈ line, isLineEnd c = false) (nonempty : last ≠ []) :
    lines (['\n'].intercalate (front ++ [last])) = front ++ [last] := by
  obtain ⟨hfront, hlast⟩ := List.forall_mem_append.mp within
  rw [lines_intercalate_concat last hfront, lines_last (hlast last List.mem_cons_self) nonempty]

/-! ## 3. Joining -/

/-- The trimmed lines that are not blank. -/
def solidLines (lines : List (List Char)) : List (List Char) :=
  (lines.map trim).filter fun line => !line.isEmpty

/-- They are joined by single spaces. -/
def joined (lines : List (List Char)) : List Char := [' '].intercalate (solidLines lines)

theorem Respaced.of_within {line cs ds : List Char} (within : ∀ c ∈ line, isLineEnd c = false)
    (h : Respaced cs ds) : Respaced (line ++ cs) (line ++ ds) := by
  induction line with
  | nil => exact h
  | cons c line ih =>
    obtain ⟨hc, hline⟩ := List.forall_mem_cons.mp within
    exact .keep hc (ih hline)

theorem Respaced.isBlank {cs : List Char} (h : Respaced cs []) : ∀ c ∈ cs, isBlank c = true := by
  cases h with
  | finish blank => exact blank

theorem solidLines_cons_blank {line : List Char} (h : trim line = []) (others : List (List Char)) :
    solidLines (line :: others) = solidLines others := by
  unfold solidLines
  rw [List.map_cons, h]
  rfl

theorem solidLines_cons_solid {line : List Char} (h : trim line ≠ []) (others : List (List Char)) :
    solidLines (line :: others) = trim line :: solidLines others := by
  have hsolid : (!(trim line).isEmpty) = true := by
    rw [Bool.not_eq_true', List.isEmpty_eq_false_iff]
    exact h
  unfold solidLines
  rw [List.map_cons, List.filter_cons, if_pos hsolid]

/-- A line and what follows it: blanks only, or a gap with a line end and the text of
    further lines. -/
inductive Followed (others : List (List Char)) : List Char → Prop where
  | blank {tail : List Char} (none : solidLines others = [])
    (blank : ∀ c ∈ tail, Text.isBlank c = true) :
    Followed others tail
  | more {gap rest : List Char} (some : solidLines others ≠ [])
    (blank : ∀ c ∈ gap, Text.isBlank c = true)
    (broken : ∃ c ∈ gap, isLineEnd c = true) (kept : Respaced rest (joined others)) :
    Followed others (gap ++ rest)

/-- A line in front of others. -/
theorem Followed.respaced {line tail : List Char} {others : List (List Char)}
    (within : ∀ c ∈ line, isLineEnd c = false) (h : Followed others tail) :
    ∃ before rest, line ++ tail = before ++ rest ∧ (∀ c ∈ before, Text.isBlank c = true) ∧
      Respaced rest (joined (line :: others)) := by
  obtain ⟨before, after, hline, hbefore, hafter⟩ := exists_trim line
  have hwithin : ∀ c ∈ trim line, isLineEnd c = false := fun c hc => within c (mem_of_mem_trim hc)
  -- a blank line leaves nothing behind, and its end joins the gap before the next line
  by_cases hblank : trim line = []
  · have hall : ∀ c ∈ line, Text.isBlank c = true := isBlank_of_trim_eq_nil hblank
    unfold joined
    rw [solidLines_cons_blank hblank]
    cases h with
    | blank none blank =>
      rw [none]
      exact ⟨line ++ tail, [], (List.append_nil _).symm, List.forall_mem_append.mpr ⟨hall, blank⟩,
        .finish fun _ hc => absurd hc List.not_mem_nil⟩
    | @more gap rest _ blank _ kept =>
      exact ⟨line ++ gap, rest, (List.append_assoc _ _ _).symm,
        List.forall_mem_append.mpr ⟨hall, blank⟩, kept⟩
  · refine ⟨before, trim line ++ (after ++ tail), ?_, hbefore, ?_⟩
    · conv => lhs; rw [hline]
      rw [List.append_assoc, List.append_assoc]
    · unfold joined
      rw [solidLines_cons_solid hblank]
      cases h with
      | blank none blank =>
        -- no more lines: what is left at the end is a gap that closes the text
        rw [none, List.intercalate_singleton]
        conv => arg 2; rw [← List.append_nil (trim line)]
        exact .of_within hwithin (.finish (List.forall_mem_append.mpr ⟨hafter, blank⟩))
      | @more gap rest some blank broken kept =>
        obtain ⟨first, further, hothers⟩ := List.exists_cons_of_ne_nil some
        -- the gap contains a line end, so it may be replaced by a single space
        have hgap : ∃ c ∈ after ++ gap, isLineEnd c = true := by
          obtain ⟨c, hc, hend⟩ := broken
          exact ⟨c, List.mem_append_right _ hc, hend⟩
        unfold joined at kept
        rw [hothers] at kept ⊢
        rw [List.intercalate_cons_cons, List.append_assoc, ← List.append_assoc after]
        exact .of_within hwithin (.gap (List.forall_mem_append.mpr ⟨hafter, blank⟩) hgap kept)

/-- **The joined lines of a text are the text, respaced**, but for blanks at its start. -/
theorem respaced_joined {cs : List Char} {lines : List (List Char)} (h : Cut cs lines) :
    ∃ before rest, cs = before ++ rest ∧ (∀ c ∈ before, Text.isBlank c = true) ∧
      Respaced rest (joined lines) := by
  have hnone : ∀ c ∈ ([] : List Char), Text.isBlank c = true :=
    fun _ hc => absurd hc List.not_mem_nil
  induction h with
  | nil => exact ⟨[], [], rfl, hnone, .finish hnone⟩
  | @last line _ within =>
    have hend : Followed [] [] := .blank rfl hnone
    obtain ⟨before, rest, hline, hbefore, hrest⟩ := hend.respaced within
    exact ⟨before, rest, (List.append_nil line).symm.trans hline, hbefore, hrest⟩
  | @line line ending rest others within nonempty ends _ ih =>
    obtain ⟨before, core, rfl, hbefore, hcore⟩ := ih
    have hending : ∀ c ∈ ending, Text.isBlank c = true :=
      fun c hc => isBlank_of_isLineEnd (ends c hc)
    have hgap : ∀ c ∈ ending ++ before, Text.isBlank c = true :=
      List.forall_mem_append.mpr ⟨hending, hbefore⟩
    refine Followed.respaced within ?_
    rw [← List.append_assoc]
    -- whether anything stands on the later lines decides if a gap or the end follows
    by_cases hothers : solidLines others = []
    · unfold joined at hcore
      rw [hothers] at hcore
      exact .blank hothers (List.forall_mem_append.mpr ⟨hgap, hcore.isBlank⟩)
    -- the line end between two lines is what allows the gap to be a single space
    · obtain ⟨c, cs, hc⟩ := List.exists_cons_of_ne_nil nonempty
      have hfirst : c ∈ ending := hc ▸ List.mem_cons_self
      exact .more hothers hgap ⟨c, List.mem_append_left _ hfirst, ends c hfirst⟩ hcore

end Sigil.Text

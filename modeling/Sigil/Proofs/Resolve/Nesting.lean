import Sigil.Proofs.Expr.Image
import Sigil.Proofs.Resolve.Siblings

/-!
# No nesting is enough

What an access picks is walked at the place of the access itself: that is nested once more, but the
walk stands no deeper among the expansions and no further below the root. So neither the budget nor
the limit on levels bounds how deep walks nest. One definition will do, of an object whose fields
pick one another in turn (`links`): the access to its first field nests as often as there are fields
(`walk_link_unfinished`), and comes to an end after them (`walk_link_ends`). Whatever an interpreter
bears, there is a resolution that ends and that it does not bear (`no_nesting_is_enough`).
-/

namespace Sigil.Expr

/-! ## 1. The object -/

/-- The name of a field, longer from one field to the next. -/
def linkName (i : Nat) : String := String.ofList (List.replicate (i + 1) 'x')

/-- The access to a field of the object. -/
def link (i : Nat) : Expr := .member (.reference "a") (linkName i)

/-- The value of a field: the access to the next one, and null in the last. -/
def linkValue (last i : Nat) : Expr := if i < last then link (i + 1) else .null

def links (last : Nat) : Expr :=
  .object ((List.range (last + 1)).map fun i => (linkName i, linkValue last i))

theorem linkName_injective {i j : Nat} (h : linkName i = linkName j) : i = j := by
  have hlength := congrArg List.length (String.ofList_injective h)
  rw [List.length_replicate, List.length_replicate] at hlength
  exact Nat.succ.inj hlength

theorem isFreeName_linkName (i : Nat) : Lexeme.isFreeName (linkName i) = true := by
  have hname : Text.isName (List.replicate (i + 1) 'x') = true := by
    rw [List.replicate_succ, Text.isName, Bool.and_eq_true_iff, List.all_eq_true]
    refine ⟨by decide, fun c hc => ?_⟩
    rw [List.eq_of_mem_replicate hc]
    decide
  have hfirst : ∀ word : String, word.toList.head? ≠ some 'x' → linkName i ≠ word := by
    rintro word hword rfl
    exact hword (congrArg List.head? (String.toList_ofList))
  unfold Lexeme.isFreeName
  rw [linkName, String.toList_ofList, hname, Bool.true_and]
  simp only [List.contains_cons, List.contains_nil, Bool.or_false, Bool.not_eq_true',
    Bool.or_eq_false_iff, beq_eq_false_iff_ne]
  exact ⟨hfirst _ (by decide), hfirst _ (by decide), hfirst _ (by decide)⟩

theorem select_links {last i : Nat} (h : i ≤ last) :
    (links last).select (linkName i) = .ok (some (linkValue last i)) := by
  refine select_eq_some_iff.mpr ⟨_, rfl, ?_⟩
  have hfind : (List.range (last + 1)).find? (fun j => linkName j == linkName i) = some i := by
    refine List.find?_range_eq_some.mpr ⟨beq_self_eq_true _, List.mem_range.mpr (by omega), ?_⟩
    intro j hj
    simpa using fun heq => absurd (linkName_injective heq) (Nat.ne_of_lt hj)
  have hkey : (fun field : String × Expr => field.1 == linkName i) ∘
      (fun j => (linkName j, linkValue last j)) = fun j => linkName j == linkName i := rfl
  unfold field?
  rw [List.find?_map, hkey, hfind]
  rfl

/-- A value of a field, whichever it is. -/
theorem linkValue_cases {last i : Nat} {P : Expr → Prop} (null : P .null)
    (access : ∀ j, P (link j)) : P (linkValue last i) := by
  unfold linkValue
  split
  · exact access _
  · exact null

/-- Every value among the fields is null or an access to a field. -/
theorem children_links {last : Nat} {P : Expr → Prop} (null : P .null) (access : ∀ j, P (link j)) :
    ∀ c ∈ (links last).children, P c := by
  intro c hc
  obtain ⟨field, hfield, rfl⟩ := List.mem_map.mp hc
  obtain ⟨i, -, rfl⟩ := List.mem_map.mp hfield
  exact linkValue_cases null access

theorem wellFormed_leaf {e : Expr} (he : e.isSpellable = true) (hleaf : e.children = []) :
    e.WellFormed :=
  wellFormed_node_iff.mpr ⟨he, fun _ hc => absurd (hleaf ▸ hc) List.not_mem_nil⟩

theorem wellFormed_links (last : Nat) : (links last).WellFormed := by
  refine wellFormed_node_iff.mpr
    ⟨decide_eq_true ?_, children_links (wellFormed_leaf rfl rfl) fun j => ?_⟩
  · rw [List.map_map]
    exact List.nodup_range.map fun _ _ => linkName_injective
  · refine wellFormed_node_iff.mpr ⟨isFreeName_linkName j, fun c hc => ?_⟩
    rw [List.mem_singleton.mp hc]
    exact wellFormed_leaf rfl rfl

theorem ofText_links (last : Nat) : ofText (links last).spelt = .ok (links last) := by
  refine ofText_spelt (wellFormed_links last) ?_
  have hheight : (links last).height ≤ 2 :=
    height_le_iff.mpr (children_links (by decide) fun _ => Nat.le_refl _)
  unfold maxNesting
  omega

/-- The registry in which a name stands for the object. -/
def linked (last : Nat) : Registry := ⟨[("a", (links last).spelt)], List.nodup_singleton _⟩

theorem expansion_linked (last : Nat) :
    (linked last).definitions.expansion "a" = .ok (some (links last)) :=
  Registry.expansion_eq_some_iff.mpr ⟨_, rfl, ofText_links last⟩

/-! ## 2. The walks -/

open Trace

variable {definitions : Definitions} {budget : Budget} {exhaustion : Exhaustion} {last i n : Nat}

/-- Inside of its own expansion the object stays as it is. -/
theorem walk_links_inside {p : Place} (inside : "a" ∈ p.visited) :
    (walk definitions budget exhaustion (n + 3) p (links last)).outcome = .value (links last) := by
  refine (walk_plain_outcome_iff rfl).mpr ⟨(links last).children, ?_, (rebuild_children _).symm⟩
  refine List.forall₂_same.mpr (children_links rfl fun j => ?_)
  refine walk_member_outcome_iff.mpr ⟨.reference "a", ?_, .inl ⟨rfl, rfl⟩⟩
  have hstep : SymbolStep definitions budget exhaustion (walk definitions budget exhaustion n)
      p.below.below "a" (.reference "a") _ := .cycle inside rfl
  rw [walk_symbol rfl, hstep.eq]
  rfl

/-- From the outside, the name stands for the object. -/
theorem walk_target (given : definitions.expansion "a" = .ok (some (links last))) :
    (walk definitions budget exhaustion (n + 4) Place.root.below (.reference "a")).outcome =
      .value (links last) := by
  have hstep : SymbolStep definitions budget exhaustion
      (walk definitions budget exhaustion (n + 3)) Place.root.below "a" (.reference "a") _ :=
    .expanded (links last) List.not_mem_nil given budget.one_le (by decide) rfl
  rw [walk_symbol rfl, hstep.eq]
  exact walk_links_inside List.mem_cons_self

/-- **The access to a field does not end** within as many nested walks as there are
    fields after it. -/
theorem walk_link_unfinished (given : definitions.expansion "a" = .ok (some (links last)))
    (h : i + n ≤ last) :
    (walk definitions budget exhaustion n .root (link i)).outcome = .unfinished := by
  induction n generalizing i with
  | zero => rfl
  | succ n ih =>
    rw [link, walk_member, bind_outcome]
    by_cases hends : (walk definitions budget exhaustion n Place.root.below
        (.reference "a")).outcome = .unfinished
    · rw [hends]
    -- the target ends, so it is the object, and the next field is picked at the same place
    · have htarget := walk_eq_of_le (Nat.le_add_right n 4) hends
      rw [← htarget, walk_target given]
      dsimp only
      rw [select_links (by omega), linkValue, if_pos (by omega)]
      exact ih (by omega)

/-- **The access to a field ends** once the walks nest deep enough. -/
theorem walk_link_ends (given : definitions.expansion "a" = .ok (some (links last)))
    (h : i + n = last) :
    (walk definitions budget exhaustion (n + 5) .root (link i)).outcome = .value .null := by
  induction n generalizing i with
  | zero =>
    refine walk_member_outcome_iff.mpr ⟨links last, walk_target given, .inr ⟨.null, ?_, rfl⟩⟩
    rw [select_links (by omega), linkValue, if_neg (by omega)]
  | succ n ih =>
    refine walk_member_outcome_iff.mpr ⟨links last, ?_, .inr ⟨link (i + 1), ?_, ih (by omega)⟩⟩
    · exact walk_target given
    · rw [select_links (by omega), linkValue, if_pos (by omega)]

/-- **No nesting is enough**: under settings that escalate nothing, whatever the budget,
    there are definitions under which this expression resolves to null, but not within
    so many nested walks. -/
theorem no_nesting_is_enough (bound : Nat) {settings : Settings} (deep : settings.mode = .deep)
    (calm : ∀ code, settings.verdict code ≠ .raise) {e : Expr} (read : ofText "$a.x" = .ok e) :
    ∃ registry : Registry, (∀ n ≤ bound, (e.resolve n registry settings).outcome = .unfinished) ∧
      ∃ n, (e.resolve n registry settings).outcome = .value .null := by
  have hread : ofText "$a.x" = .ok (link 0) := rfl
  cases hread.symm.trans read
  have given := expansion_linked bound
  refine ⟨linked bound, fun n hn => ?_, bound + 5, ?_⟩
  · rw [resolve_outcome deep calm]
    exact walk_link_unfinished given (by omega)
  · rw [resolve_outcome deep calm]
    exact walk_link_ends given (by omega)

end Sigil.Expr

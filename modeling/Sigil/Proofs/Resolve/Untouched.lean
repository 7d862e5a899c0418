import Sigil.Proofs.Registry.Merge
import Sigil.Proofs.Resolve.FixedPoint
import Sigil.Proofs.Resolve.Reach

/-!
# What no registry touches

A settled tree is inert whatever the registry defines, so resolution returns it in either mode and
has nothing to report (`inert_of_isSettled`). Conversely one flat step settles a tree all of whose
names stand for settled trees: the symbols are gone, so an access has a target to pick from, and
where it cannot, the step fails (`isSettled_of_flat`). A registry that defines every name of the
tree as null is one of these. What even this registry returns as it was is therefore settled
(`isSettled_iff_untouched`).
-/

namespace Sigil

namespace Expr

variable {definitions : Definitions}

/-! ## 1. Settled trees stay -/

/-- Nothing is left to do in a settled tree, against any definitions. -/
theorem inert_of_isSettled {e : Expr} (noForeign : e.foreign? = none) (h : e.isSettled = true) :
    e.Inert definitions := by
  induction e using shape_induction with
  | symbol e name hname =>
    have hsymbolic := (isSettled_node_iff.mp h).1
    rw [isSymbolic_of_name? hname] at hsymbolic
    cases hsymbolic
  | member target field => cases h
  | foreign shown => cases noForeign
  | plain e he ih =>
    refine (inert_plain_iff he).mpr fun c hc => ?_
    exact ih c hc (foreign?_of_child noForeign hc) ((isSettled_node_iff.mp h).2 c hc)

/-! ## 2. Definitions that settle -/

/-- The name stands for a settled tree. -/
def StandsForSettled (definitions : Definitions) (name : String) : Prop :=
  ∃ d, definitions.expansion name = .ok (some d) ∧ d.isSettled = true

/-- **One flat step settles a tree** all of whose names stand for settled trees, if it
    does not fail. -/
theorem isSettled_of_flat {e r : Expr} (defined : e.Confined (StandsForSettled definitions))
    (h : e.flat definitions = .ok r) : r.isSettled = true := by
  induction e using shape_induction generalizing r with
  | symbol e name hname =>
    obtain ⟨d, hd, hsettled⟩ := (confined_of_name? hname).mp defined
    rw [flat_symbol hname, hd] at h
    cases h
    exact hsettled
  | member target field ih =>
    rw [flat_member] at h
    obtain ⟨t, ht, hselect⟩ := bind_eq_ok_iff.mp h
    obtain ⟨picked, hpick, hr⟩ := bind_eq_ok_iff.mp hselect
    cases hr
    have htarget : t.isSettled = true := ih (defined.child (List.mem_singleton_self target)) ht
    obtain ⟨hsymbolic, hchildren⟩ := isSettled_node_iff.mp htarget
    cases picked with
    | none =>
      -- nothing is picked from symbols only, and there are none left
      rw [select_eq_none_iff.mp hpick] at hsymbolic
      cases hsymbolic
    | some picked => exact hchildren picked (mem_children_of_select hpick)
  | foreign shown => cases h
  | plain e he ih =>
    obtain ⟨cs, hcs, rfl⟩ := (flat_plain_eq_ok_iff he).mp h
    have hlength : cs.length = e.children.length := hcs.length_eq.symm
    refine isSettled_node_iff.mpr ⟨isSymbolic_of_isPlain (isPlain_rebuild he hlength), ?_⟩
    rw [children_rebuild hlength]
    intro d hd
    obtain ⟨c, hc, hflat⟩ := forall_mem_of_forall₂ hcs d hd
    exact ih c hc (defined.child hc) hflat

end Expr

/-! ## 3. A registry of nulls -/

/-- The registry that defines each of these names as null. -/
def Registry.nulls (names : List String) : Registry :=
  empty.putAll (names.map fun name => (name, "null"))

theorem Registry.find?_nulls {names : List String} {name : String} (h : name ∈ names) :
    (nulls names).find? name = some "null" := by
  have hlast : Entries.find? name (names.map fun name => (name, "null")).reverse = some "null" := by
    rw [← List.map_reverse]
    exact Entries.find?_map_const (List.mem_reverse.mpr h) "null"
  unfold find? nulls putAll
  rw [Entries.find?_putAll, hlast, Option.some_or]

namespace Expr

/-- What one flat step leaves of a tree is settled where all its names stand for null. -/
theorem isSettled_of_flat_nulls {e r : Expr}
    (h : e.flat (Registry.nulls e.names).definitions = .ok r) :
    r.isSettled = true := by
  refine isSettled_of_flat (fun name hname => ⟨.null, ?_, rfl⟩) h
  exact Registry.expansion_eq_some_iff.mpr ⟨"null", Registry.find?_nulls hname, rfl⟩

/-! ## 4. Trees that every registry leaves alone -/

/-- **A tree is settled if and only if flat resolution returns it against every registry**; and then
    every resolution returns it, in deep mode too, against every registry and under all settings,
    and there is nothing to report. -/
theorem isSettled_iff_untouched {e : Expr} (noForeign : e.foreign? = none) :
    (e.isSettled = true ↔
      ∀ registry : Registry, e.resolveFlat registry.definitions = ⟨[], .value e⟩) ∧
    (e.isSettled = true → ∀ (registry : Registry) (settings : Settings) (n : Nat), e.height < n →
      e.resolve n registry settings = ⟨[], .value e⟩) := by
  refine ⟨⟨fun h registry => ?_, fun untouched => ?_⟩, fun h registry settings n hn => ?_⟩
  · unfold resolveFlat
    rw [flat_of_inert (inert_of_isSettled noForeign h)]
  -- a registry that defines every name in sight shows whether anything is replaced
  · have hnulls := untouched (Registry.nulls e.names)
    unfold resolveFlat at hnulls
    cases hflat : e.flat (Registry.nulls e.names).definitions with
    | error fault =>
      rw [hflat] at hnulls
      cases hnulls
    | ok r =>
      rw [hflat] at hnulls
      cases hnulls
      exact isSettled_of_flat_nulls hflat
  · exact resolve_of_inert (inert_of_isSettled noForeign h) hn

/-- An access that would drop the symbol of its target is not left alone; without the access and the
    symbol the object is, keys repeated or not. -/
theorem object_without_symbols_is_untouched :
    let access : Expr := .member (.object [("x", .reference "a"), ("y", .bool true)]) "y"
    let object : Expr := .object [("x", .array [.existence]), ("x", .bool true)]
    access.foreign? = none ∧ object.foreign? = none ∧ object.isSettled = true ∧
      (¬ ∀ registry : Registry, access.resolveFlat registry.definitions = ⟨[], .value access⟩) ∧
      (∀ registry : Registry, object.resolveFlat registry.definitions = ⟨[], .value object⟩) ∧
      ∀ (registry : Registry) (settings : Settings) (n : Nat), object.height < n →
        object.resolve n registry settings = ⟨[], .value object⟩ := by
  intro access object
  have haccess : access.foreign? = none := rfl
  have hobject : object.foreign? = none := rfl
  have hsettled : object.isSettled = true := rfl
  refine ⟨haccess, hobject, hsettled, fun untouched => ?_,
    (isSettled_iff_untouched hobject).1.mp hsettled, (isSettled_iff_untouched hobject).2 hsettled⟩
  exact Bool.noConfusion ((isSettled_iff_untouched haccess).1.mpr untouched)

end Expr

end Sigil

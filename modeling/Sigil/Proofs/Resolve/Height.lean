import Sigil.Proofs.Expr.Height
import Sigil.Proofs.Resolve.Report
import Sigil.Proofs.Resolve.Trace

/-!
# How high a result can be

A definition is put in above level `maxResultNesting` only, and is no higher than `maxNesting`. So
what a walk returns ends at the deepest level that this allows, or where its own expression ended
(`walk_height_le`). The target of an access is walked one level lower than what is picked from it is
put; that only gains room, as the pick is at least one level below the root of its target.
-/

namespace Sigil

/-- The deepest level of a result that a definition can reach down to. -/
def deepestLevel : Nat := maxResultNesting - 1 + maxNesting

/-- No definition is higher than the reader allows. -/
theorem Registry.height_le_of_expansion {registry : Registry} {name : String} {d : Expr}
    (h : registry.definitions.expansion name = .ok (some d)) : d.height ≤ maxNesting := by
  obtain ⟨entry, _, hentry⟩ := List.mem_map.mp (Definitions.mem_of_expansion h)
  exact Expr.height_le_of_ofText (Prod.ext_iff.mp hentry).2

namespace Expr

variable {definitions : Definitions} {budget : Budget} {exhaustion : Exhaustion}

/-- What a walk returns ends no deeper than the deepest level, unless its expression did. -/
theorem walk_height_le
    (low : ∀ name d, definitions.expansion name = .ok (some d) → d.height ≤ maxNesting) {n : Nat}
    {p : Place} {e r : Expr} (h : (walk definitions budget exhaustion n p e).outcome = .value r) :
    p.level + r.height ≤ max (p.level + e.height) deepestLevel := by
  refine walk_induction (motive :=
    fun p e r => p.level + r.height ≤ max (p.level + e.height) deepestLevel)
    ?stays ?expanded ?left ?picked ?plain h
  case stays => exact fun _ => Nat.le_max_left _ _
  case expanded =>
    intro p e name d r _ expansion level ih
    have hinside : p.level + r.height ≤ max (p.level + d.height) deepestLevel := ih
    have hlow : d.height ≤ maxNesting := low name d expansion
    unfold deepestLevel at hinside ⊢
    omega
  case left =>
    intro p target field t _ ih
    have htarget : p.level + 1 + t.height ≤ max (p.level + 1 + target.height) deepestLevel := ih
    have hheight : (member target field).height = target.height + 1 := rfl
    have hstuck : (member t field).height = t.height + 1 := rfl
    omega
  case picked =>
    intro p target field t picked r hpick ihtarget ih
    have htarget : p.level + 1 + t.height ≤
        max (p.level + 1 + target.height) deepestLevel := ihtarget
    have hheight : (member target field).height = target.height + 1 := rfl
    have hpickedLow : picked.height < t.height := height_lt_of_child (mem_children_of_select hpick)
    omega
  case plain =>
    intro p e cs _ hcs
    have hchildren : ∀ c ∈ cs, p.level + (c.height + 1) ≤
        max (p.level + e.height) deepestLevel := by
      intro c hc
      obtain ⟨before, hbefore, ih⟩ := forall_mem_of_forall₂ hcs c hc
      have hlower : before.height < e.height := height_lt_of_child hbefore
      have hwalked : p.level + 1 + c.height ≤ max (p.level + 1 + before.height) deepestLevel := ih
      omega
    have hrebuilt : (e.rebuild cs).height ≤ max (p.level + e.height) deepestLevel - p.level := by
      refine height_le_iff.mpr fun c hc => ?_
      rw [children_rebuild hcs.length_eq.symm] at hc
      exact Nat.le_sub_of_add_le' (hchildren c hc)
    omega

/-- **The height of a result is bounded**, whatever the definitions: it is that of the expression
    or at most `191`, the deepest level but one at which a definition may be put in and the
    nesting limit of the reader together. So what was read from tokens is never resolved to a
    higher tree than that. -/
theorem resolve_height_le {n : Nat} {registry : Registry} {settings : Settings} {e r : Expr}
    (deep : settings.mode = .deep) (value : (e.resolve n registry settings).outcome = .value r) :
    r.height ≤ max e.height 191 ∧ ∀ tokens, ofTokens tokens = .ok e → r.height ≤ 191 := by
  have hwalk := ((resolve_outcome_eq_value_iff deep).mp value).1
  have hbound : Place.root.level + r.height ≤ max (Place.root.level + e.height) deepestLevel :=
    walk_height_le (fun _ _ => Registry.height_le_of_expansion) hwalk
  have hroot : Place.root.level = 0 := rfl
  have hdeepest : deepestLevel = 191 := rfl
  rw [hroot, Nat.zero_add, Nat.zero_add, hdeepest] at hbound
  refine ⟨hbound, fun tokens hread => ?_⟩
  have hlow : e.height ≤ 64 := height_le_of_ofTokens hread
  omega

/-- What an access picks may be higher than the access: here a difference with a definition in it,
    which is as high as both together. -/
theorem access_to_nested_definition_height :
    let registry : Registry :=
      ⟨[("a", "\x7b\"x\": \x7b$b\x7d\x7d"), ("b", "[[null, true]]")], by decide⟩
    let e := Expr.member (.reference "a") "x"
    ∃ r, (e.resolve 10 registry {}).outcome = .value r ∧ e.height = 1 ∧ r.height = 3 ∧
      r.height ≤ max e.height 191 := by
  intro registry e
  have hvalue : (e.resolve 10 registry {}).outcome =
      .value (.difference (.similarity (.array [.null, .bool true]))) := by rfl
  exact ⟨_, hvalue, rfl, rfl, (resolve_height_le rfl hvalue).1⟩

end Expr

end Sigil

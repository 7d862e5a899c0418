import Mathlib.Algebra.GroupWithZero.Nat
import Mathlib.Algebra.Order.BigOperators.Group.List
import Mathlib.Algebra.Order.Group.Nat
import Sigil.Proofs.Resolve.Reach

/-!
# What a walk cannot make more of

Given a rank of the names that goes with the dependencies, a walk never brings in names of a higher
rank (`within_of_walk`). Of accesses it brings in none that matters: at a bound on the ranks, an
access is heavy if its target comes up to that bound, and what a definition of a name below the
bound holds is never heavy. So a walk makes no more heavy accesses than there were
(`heavyCount_le_of_walk`).
-/

namespace Sigil.Expr

open Trace

/-! ## 1. Ranks of the names -/

/-- All names of the expression have a rank below the bound. -/
def Within (rank : String → Nat) (bound : Nat) (e : Expr) : Prop :=
  ∀ name ∈ e.names, rank name < bound

instance (rank : String → Nat) (bound : Nat) (e : Expr) : Decidable (e.Within rank bound) :=
  inferInstanceAs (Decidable (∀ name ∈ e.names, rank name < bound))

section

variable {rank : String → Nat} {bound : Nat}

theorem within_of_name? {e : Expr} {name : String} (h : e.name? = some name) :
    e.Within rank bound ↔ rank name < bound := confined_of_name? h

theorem Within.child {e c : Expr} (h : e.Within rank bound) (hc : c ∈ e.children) :
    c.Within rank bound := Confined.child h hc

/-- Names below a bound lead to names below it. -/
theorem closed_below {definitions : Definitions} (hr : definitions.Ranked rank) (bound : Nat) :
    definitions.Closed fun name => rank name < bound := by
  rintro a b ha ⟨d, hd, hb⟩
  exact Nat.lt_of_le_of_lt (hr.le_of_mention hd b hb) ha

theorem Within.of_definition {definitions : Definitions} (hr : definitions.Ranked rank)
    {name : String}
    {d : Expr} (hd : definitions.expansion name = .ok (some d)) (hname : rank name < bound) :
    d.Within rank bound := Confined.of_definition (closed_below hr bound) hd hname

end

variable {definitions : Definitions} {budget : Budget} {exhaustion : Exhaustion}
    {rank : String → Nat}

/-- A walk brings in no name of a rank that was not there. -/
theorem within_of_walk (hr : definitions.Ranked rank) {bound n : Nat} {p : Place} {e r : Expr}
    (he : e.Within rank bound)
    (h : (walk definitions budget exhaustion n p e).outcome = .value r) : r.Within rank bound :=
  confined_of_walk (closed_below hr bound) he h

/-! ## 2. Heavy accesses -/

/-- Whether this is an access whose target comes up to the bound: not all its names have a rank
    below the next lower one. At the bound `0` every access is heavy. -/
def isHeavy (rank : String → Nat) (bound : Nat) : Expr → Bool
  | .member target _ => bound == 0 || !decide (target.Within rank (bound - 1))
  | _ => false

/-- How many heavy accesses the expression holds. -/
def heavyCount (rank : String → Nat) (bound : Nat) (e : Expr) : Nat :=
  e.parts.countP (isHeavy rank bound)

variable {bound : Nat}

theorem isHeavy_member_eq_false_iff {target : Expr} {field : String} :
    isHeavy rank bound (.member target field) = false ↔
      ∃ lower, bound = lower + 1 ∧ target.Within rank lower := by
  cases bound with
  | zero => simp [isHeavy]
  | succ lower => simp [isHeavy]

theorem isHeavy_of_ne_member {e : Expr} (h : ∀ target field, e ≠ .member target field) :
    isHeavy rank bound e = false := by
  cases e with
  | member target field => exact absurd rfl (h target field)
  | _ => rfl

/-- The heavy accesses of a node are its own, if it is one, and those of its children. -/
theorem heavyCount_eq (e : Expr) :
    e.heavyCount rank bound =
      (e.children.map (heavyCount rank bound)).sum + if isHeavy rank bound e then 1 else 0 := by
  unfold heavyCount
  rw [parts_eq, List.countP_cons, List.countP_flatMap]
  rfl

theorem heavyCount_member (target : Expr) (field : String) :
    (member target field).heavyCount rank bound =
      target.heavyCount rank bound +
        if isHeavy rank bound (.member target field) then 1 else 0 := by
  rw [heavyCount_eq]
  rfl

theorem heavyCount_le_of_child {e c : Expr} (hc : c ∈ e.children) :
    c.heavyCount rank bound ≤ e.heavyCount rank bound := by
  have hsum : c.heavyCount rank bound ≤ (e.children.map (heavyCount rank bound)).sum :=
    List.le_sum_of_mem (List.mem_map_of_mem hc)
  rw [heavyCount_eq e]
  omega

theorem heavyCount_member_le {target t : Expr} {field : String}
    (htarget : t.heavyCount rank bound ≤ target.heavyCount rank bound)
    (hlight : isHeavy rank bound (.member target field) = false →
      isHeavy rank bound (.member t field) = false) :
    (member t field).heavyCount rank bound ≤ (member target field).heavyCount rank bound := by
  rw [heavyCount_member, heavyCount_member]
  cases hheavy : isHeavy rank bound (.member target field) with
  | true =>
    rw [if_pos rfl]
    split <;> omega
  | false =>
    rw [hlight hheavy]
    exact htarget

/-- A plain node over other children holds the heavy accesses of these. -/
theorem heavyCount_rebuild {e : Expr} (he : e.isPlain = true) {cs : List Expr}
    (hlength : cs.length = e.children.length) :
    (e.rebuild cs).heavyCount rank bound = (cs.map (heavyCount rank bound)).sum := by
  have hlight : isHeavy rank bound (e.rebuild cs) = false := by
    refine isHeavy_of_ne_member fun target field heq => ?_
    have hrebuilt := isPlain_rebuild he hlength
    rw [heq] at hrebuilt
    cases hrebuilt
  rw [heavyCount_eq, hlight, children_rebuild hlength]
  rfl

theorem heavyCount_rebuild_le {e : Expr} (he : e.isPlain = true) {cs : List Expr}
    (h : List.Forall₂ (fun before c => c.heavyCount rank bound ≤ before.heavyCount rank bound)
      e.children cs) :
    (e.rebuild cs).heavyCount rank bound ≤ e.heavyCount rank bound := by
  have hsum : (cs.map (heavyCount rank bound)).sum ≤
      (e.children.map (heavyCount rank bound)).sum := by
    refine List.Forall₂.sum_le_sum ?_
    rw [List.forall₂_map_left_iff, List.forall₂_map_right_iff]
    exact h.flip
  rw [heavyCount_rebuild he h.length_eq.symm, heavyCount_eq e]
  omega

/-- The definition of a name below the bound holds no heavy access. -/
theorem heavyCount_definition (hr : definitions.Ranked rank) {name : String} {d : Expr}
    (hd : definitions.expansion name = .ok (some d)) (hname : rank name < bound) :
    d.heavyCount rank bound = 0 := by
  unfold heavyCount
  rw [List.countP_eq_zero]
  -- an access in a definition is on names of a lower rank, so it is light
  intro part hpart
  cases part with
  | member target field =>
    have htarget : target.Within rank (bound - 1) := by
      intro b hb
      have hlt : rank b < rank name := hr.lt_of_access hd hpart b hb
      omega
    have hlight : isHeavy rank bound (.member target field) = false :=
      isHeavy_member_eq_false_iff.mpr ⟨bound - 1, by omega, htarget⟩
    rw [hlight]
    exact Bool.false_ne_true
  | _ => exact Bool.false_ne_true

/-- A walk below the bound makes no heavy access that was not there. -/
theorem heavyCount_le_of_walk (hr : definitions.Ranked rank) {n : Nat} {p : Place} {e r : Expr}
    (he : e.Within rank bound)
    (h : (walk definitions budget exhaustion n p e).outcome = .value r) :
    r.heavyCount rank bound ≤ e.heavyCount rank bound := by
  induction n generalizing p e r with
  | zero => cases h
  | succ n ih =>
    cases e using shape_induction with
    | symbol e name hname =>
      -- in place of the symbol stands the symbol or a definition, which has no heavy access
      rcases walk_symbol_outcome hname h with rfl | ⟨d, hd, hwalk⟩
      · exact Nat.le_refl _
      · have hlt : rank name < bound := (within_of_name? hname).mp he
        have hle := ih (.of_definition hr hd hlt) hwalk
        rw [heavyCount_definition hr hd hlt] at hle
        exact Nat.le_trans hle (Nat.zero_le _)
    | member target field =>
      have htarget : target.Within rank bound := he.child (List.mem_singleton_self _)
      obtain ⟨t, ht, hcases⟩ := walk_member_outcome_iff.mp h
      have hle : t.heavyCount rank bound ≤ target.heavyCount rank bound := ih htarget ht
      rcases hcases with ⟨_, rfl⟩ | ⟨picked, hpick, hpicked⟩
      · -- a light access stays light, as its target brings in no higher name
        refine heavyCount_member_le hle fun hlight => ?_
        obtain ⟨lower, hlower, hbelow⟩ := isHeavy_member_eq_false_iff.mp hlight
        exact isHeavy_member_eq_false_iff.mpr ⟨lower, hlower, within_of_walk hr hbelow ht⟩
      -- what is picked is a part of the target's result, which weighs no more than the target
      · have hchild : picked ∈ t.children := mem_children_of_select hpick
        have hr' : r.heavyCount rank bound ≤ picked.heavyCount rank bound :=
          ih ((within_of_walk hr htarget ht).child hchild) hpicked
        have hpickedLe : picked.heavyCount rank bound ≤ t.heavyCount rank bound :=
          heavyCount_le_of_child hchild
        have htargetLe : target.heavyCount rank bound ≤
            (member target field).heavyCount rank bound :=
          heavyCount_le_of_child (List.mem_singleton_self _)
        omega
    | foreign shown => cases h
    | plain e hplain =>
      obtain ⟨cs, hcs, rfl⟩ := (walk_plain_outcome_iff hplain).mp h
      have hwithin := (List.forall₂_and_left e.children cs).mpr ⟨fun c hc => he.child hc, hcs⟩
      exact heavyCount_rebuild_le hplain (hwithin.imp fun _ _ hc => ih hc.1 hc.2)

end Sigil.Expr

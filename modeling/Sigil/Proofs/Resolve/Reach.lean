import Sigil.Proofs.Resolve.Dependency
import Sigil.Proofs.Resolve.Trace
import Sigil.Proofs.Rows

/-!
# Which names a walk can meet

A set of names is closed when the definitions of its names mention no others. A tree that is
confined to a closed set stays so: whatever a walk expands, picks and rebuilds, it brings in
no name from outside (`confined_of_walk`). The least such set is that of the names that can
be reached from the tree.
-/

namespace Sigil

namespace Definitions

/-! ## 1. Closed sets of names -/

/-- Nothing in the set depends on anything outside. -/
def Closed (definitions : Definitions) (S : String → Prop) : Prop :=
  ∀ a b, S a → definitions.DependsOn a b → S b

theorem closed_everything (definitions : Definitions) : definitions.Closed fun _ => True :=
  fun _ _ _ _ => trivial

/-- The names that occur in the tree or in the definition of such a name. -/
inductive Reachable (definitions : Definitions) (e : Expr) : String → Prop where
  | mentioned {name : String} (here : name ∈ e.names) : Reachable definitions e name
  | onward {a b : String} (before : Reachable definitions e a)
    (depends : definitions.DependsOn a b) : Reachable definitions e b

theorem closed_reachable (definitions : Definitions) (e : Expr) :
    definitions.Closed (definitions.Reachable e) := fun _ _ => .onward

end Definitions

namespace Expr

open Trace

/-! ## 2. Confined trees -/

/-- All names of the tree lie in the set. -/
def Confined (S : String → Prop) (e : Expr) : Prop := ∀ name ∈ e.names, S name

variable {S : String → Prop}

instance [DecidablePred S] (e : Expr) : Decidable (e.Confined S) :=
  inferInstanceAs (Decidable (∀ name ∈ e.names, S name))

theorem confined_everything (e : Expr) : e.Confined fun _ => True := fun _ _ => trivial

theorem confined_reachable (definitions : Definitions) (e : Expr) :
    e.Confined (definitions.Reachable e) := fun _ => .mentioned

/-- What can be reached from a tree lies in every closed set that the tree is confined to. -/
theorem Confined.of_reachable {definitions : Definitions} {e : Expr} (h : e.Confined S)
    (closed : definitions.Closed S) {name : String}
    (hname : definitions.Reachable e name) : S name := by
  induction hname with
  | mentioned here => exact h _ here
  | onward _ depends ih => exact closed _ _ ih depends

theorem confined_of_name? {e : Expr} {name : String} (h : e.name? = some name) :
    e.Confined S ↔ S name := by
  unfold Confined
  rw [names_of_name? h]
  exact List.forall_mem_singleton

theorem confined_iff_children {e : Expr} (h : e.name? = none) :
    e.Confined S ↔ ∀ c ∈ e.children, c.Confined S := by
  unfold Confined
  rw [names_eq_flatMap h]
  simp only [List.mem_flatMap]
  constructor
  · intro hall c hc name hname
    exact hall name ⟨c, hc, hname⟩
  · rintro hall name ⟨c, hc, hname⟩
    exact hall c hc name hname

theorem Confined.child {e c : Expr} (h : e.Confined S) (hc : c ∈ e.children) : c.Confined S := by
  intro name hname
  refine h name ?_
  obtain ⟨part, hpart, hsymbol⟩ := mem_names_iff.mp hname
  exact mem_names_iff.mpr ⟨part, mem_parts_of_child hc hpart, hsymbol⟩

/-! ## 3. Walks -/

variable {definitions : Definitions} {budget : Budget} {exhaustion : Exhaustion}

/-- The definition of a name of a closed set is confined to it. -/
theorem Confined.of_definition (closed : definitions.Closed S) {name : String} {d : Expr}
    (hd : definitions.expansion name = .ok (some d)) (hname : S name) : d.Confined S :=
  fun b hb => closed name b hname ⟨d, hd, hb⟩

/-- A walk brings in no name from outside of a closed set. -/
theorem confined_of_walk (closed : definitions.Closed S) {n : Nat} {p : Place} {e r : Expr}
    (he : e.Confined S) (h : (walk definitions budget exhaustion n p e).outcome = .value r) :
    r.Confined S := by
  -- on the walk: a definition mentions what its name leads to, everything else was there before
  refine walk_induction (motive := fun _ e r => e.Confined S → r.Confined S)
    ?stays ?expanded ?left ?picked ?plain h he
  case stays => exact fun _ he => he
  case expanded =>
    intro p e name d r hname hd _ ih he
    exact ih (.of_definition closed hd ((confined_of_name? hname).mp he))
  case left =>
    intro p target field t _ ih he
    rw [confined_iff_children rfl]
    exact List.forall_mem_singleton.mpr (ih (he.child (List.mem_singleton_self _)))
  case picked =>
    intro p target field t picked r hpick htarget ih he
    have ht : t.Confined S := htarget (he.child (List.mem_singleton_self _))
    exact ih (ht.child (mem_children_of_select hpick))
  case plain =>
    intro p e cs hplain hcs he
    have hlength : cs.length = e.children.length := hcs.length_eq.symm
    rw [confined_iff_children (name?_of_isPlain (isPlain_rebuild hplain hlength)),
      children_rebuild hlength]
    intro c hc
    obtain ⟨before, hbefore, ih⟩ := forall_mem_of_forall₂ hcs c hc
    exact ih (he.child hbefore)

end Expr

end Sigil

import Mathlib.Data.Finset.Card
import Mathlib.Logic.Relation
import Sigil.Proofs.Resolve.Access

/-!
# Which names depend on which

A name depends on the names that its definition mentions. Two names lie on a common cycle when each
depends on the other, directly or through further definitions.

A rank of the names goes with the dependencies when it never grows along one, and falls along
each one that comes from inside of the target of a member access (`Ranked`). Counting the defined
names that a name leads to gives such a rank, if no definition accesses a member of anything on a
cycle with its own name.
-/

namespace Sigil

namespace Definitions

open Relation

/-! ## 1. Dependencies and cycles -/

/-- The definition of `a` mentions `b`. -/
def DependsOn (definitions : Definitions) (a b : String) : Prop :=
  ∃ d, definitions.expansion a = .ok (some d) ∧ b ∈ d.names

/-- Each of the two names leads to the other; a name that leads to itself lies on a
    cycle with itself. -/
def OnCycle (definitions : Definitions) (a b : String) : Prop :=
  TransGen definitions.DependsOn a b ∧ TransGen definitions.DependsOn b a

/-- No definition accesses a member of something that mentions a name on a cycle with
    the defined one. -/
def NoCyclicAccess (definitions : Definitions) : Prop :=
  ∀ a d, definitions.expansion a = .ok (some d) → ∀ target field, .member target field ∈ d.parts →
    ∀ b ∈ target.names, ¬ definitions.OnCycle a b

/-! ## 2. Ranks -/

/-- A rank that goes with the dependencies. -/
structure Ranked (definitions : Definitions) (rank : String → Nat) : Prop where
  le_of_mention : ∀ {a d}, definitions.expansion a = .ok (some d) → ∀ b ∈ d.names, rank b ≤ rank a
  lt_of_access : ∀ {a d}, definitions.expansion a = .ok (some d) →
    ∀ {target field}, .member target field ∈ d.parts → ∀ b ∈ target.names, rank b < rank a

open Classical in
/-- The defined names that a name leads to, itself included. -/
noncomputable def reached (definitions : Definitions) (a : String) : Finset String :=
  (definitions.map Prod.fst).toFinset.filter (ReflTransGen definitions.DependsOn a)

variable {definitions : Definitions} {a b c : String}

theorem mem_reached_iff :
    c ∈ definitions.reached a ↔
      c ∈ definitions.map Prod.fst ∧ ReflTransGen definitions.DependsOn a c := by
  classical
  unfold reached
  rw [Finset.mem_filter, List.mem_toFinset]

theorem reached_subset (h : definitions.DependsOn a b) :
    definitions.reached b ⊆ definitions.reached a := by
  intro c hc
  obtain ⟨hdefined, hbc⟩ := mem_reached_iff.mp hc
  exact mem_reached_iff.mpr ⟨hdefined, .head h hbc⟩

/-- What does not lead back to a name leads to less. -/
theorem reached_ssubset (h : definitions.DependsOn a b)
    (hback : ¬ TransGen definitions.DependsOn b a) :
    definitions.reached b ⊂ definitions.reached a := by
  obtain ⟨d, hd, hb⟩ := h
  have hself : a ∈ definitions.reached a :=
    mem_reached_iff.mpr ⟨List.mem_map_of_mem (mem_of_expansion hd), .refl⟩
  have hmissing : a ∉ definitions.reached b := by
    intro hmem
    rcases reflTransGen_iff_eq_or_transGen.mp (mem_reached_iff.mp hmem).2 with hab | hba
    · subst hab
      exact hback (.single ⟨d, hd, hb⟩)
    · exact hback hba
  exact (Finset.ssubset_iff_of_subset (reached_subset ⟨d, hd, hb⟩)).mpr ⟨a, hself, hmissing⟩

/-- Without an access into a cycle, the number of names that a name leads to goes with the
    dependencies. -/
theorem ranked_reached (h : definitions.NoCyclicAccess) :
    definitions.Ranked fun a => (definitions.reached a).card where
  le_of_mention := fun hd b hb => Finset.card_le_card (reached_subset ⟨_, hd, hb⟩)
  lt_of_access := by
    intro a d hd target field hmember b hb
    have hmention : b ∈ d.names := by
      refine Expr.mem_names_of_mem_parts hmember ?_
      rw [Expr.names_eq_flatMap rfl]
      exact List.mem_flatMap.mpr ⟨target, List.mem_singleton_self _, hb⟩
    have hdepends : definitions.DependsOn a b := ⟨d, hd, hmention⟩
    have hback : ¬ TransGen definitions.DependsOn b a := by
      intro hback
      exact h a d hd target field hmember b hb ⟨.single hdepends, hback⟩
    exact Finset.card_lt_card (reached_ssubset hdepends hback)

end Definitions

end Sigil

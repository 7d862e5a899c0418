import Sigil.Proofs.Resolve.Compare
import Sigil.Proofs.Resolve.Flat
import Sigil.Resolve.Basic

/-!
# Which definitions matter

A resolution asks for definitions of names that can be reached from the tree, and for no others. So
two registries that agree on these give the same answer, whatever else they define, texts that
cannot be read included.
-/

namespace Sigil

namespace Expr

open Trace

variable {definitions definitions' : Definitions}

/-! ## 1. Flat resolution -/

theorem flatItems_congr {cs : List Expr} (h : ∀ c ∈ cs, c.flat definitions' = c.flat definitions) :
    flatItems definitions' cs = flatItems definitions cs := by
  induction cs with
  | nil => rfl
  | cons c cs ih =>
    obtain ⟨hc, hcs⟩ := List.forall_mem_cons.mp h
    rw [flatItems, flatItems, hc, ih hcs]

/-- One level of expansion asks for the names of the tree only. -/
theorem flat_congr {e : Expr}
    (h : e.Confined fun name => definitions'.expansion name = definitions.expansion name) :
    e.flat definitions' = e.flat definitions := by
  induction e using shape_induction with
  | symbol e name hname => rw [flat_symbol hname, flat_symbol hname, (confined_of_name? hname).mp h]
  | member target field ih =>
    rw [flat_member, flat_member, ih (h.child (List.mem_singleton_self _))]
  | foreign shown => rfl
  | plain e he ih =>
    rw [flat_plain he, flat_plain he, flatItems_congr fun c hc => ih c hc (h.child hc)]

/-! ## 2. Deep resolution -/

/-- Walks with definitions that are the same on a closed set go abreast. -/
theorem abreast_of_agree {S : String → Prop} (closed : definitions.Closed S)
    (agree : ∀ {name}, S name → definitions'.expansion name = definitions.expansion name)
    (budget : Budget) (exhaustion : Exhaustion) :
    Abreast Eq S Eq definitions definitions' budget budget exhaustion exhaustion := by
  refine abreast_of_same_place carries_eq closed agree fun hwalk => ?_
  unfold walkFound
  rw [hwalk]

/-! ## 3. Resolution -/

/-- **Only reachable definitions matter**: two registries with the same texts for all names that can
    be reached from the tree give the same answer, in either mode and under all settings. -/
theorem resolve_reads_reachable_only {n : Nat} {r₁ r₂ : Registry} {settings : Settings} {e : Expr}
    (agree : ∀ name, r₁.definitions.Reachable e name → r₁.find? name = r₂.find? name) :
    e.resolve n r₁ settings = e.resolve n r₂ settings := by
  have hagree : ∀ {name}, r₁.definitions.Reachable e name →
      r₂.definitions.expansion name = r₁.definitions.expansion name :=
    fun hname => Registry.expansion_congr (agree _ hname).symm
  have hflat : e.flat r₂.definitions = e.flat r₁.definitions :=
    flat_congr fun name hname => hagree (.mentioned hname)
  have hwalk : walk r₁.definitions settings.budget settings.exhaustion n .root e =
      walk r₂.definitions settings.budget settings.exhaustion n .root e :=
    (abreast_of_agree (Definitions.closed_reachable _ e) hagree _ _).walk n rfl
      (confined_reachable _ e)
  unfold resolve resolveFlat resolveDeep
  rw [hflat, hwalk]

/-- A name that is reached through a picked value, one that nothing defines, and around them a text
    that cannot be read and other texts for names out of reach. -/
theorem access_reads_reachable_only :
    let r₁ : Registry :=
      ⟨[("a", "\x7b\"x\": [$b, $free]\x7d"), ("b", "!b"), ("out", "null")], by decide⟩
    let r₂ : Registry :=
      ⟨[("out", "((("), ("b", "!b"), ("other", "$a"),
        ("a", "\x7b\"x\": [$b, $free]\x7d")], by decide⟩
    let e : Expr := .member (.reference "a") "x"
    (∀ name, r₁.definitions.Reachable e name → r₁.find? name = r₂.find? name) ∧
      e.resolve 9 r₁ {} = ⟨[.cycle "b"], .value (.array [.action "b", .reference "free"])⟩ ∧
      e.resolve 9 r₁ {} = e.resolve 9 r₂ {} := by
  intro r₁ r₂ e
  have hdefinitions : r₁.definitions =
      [("a", .ok (.object [("x", .array [.reference "b", .reference "free"])])),
        ("b", .ok (.action "b")), ("out", .ok .null)] := rfl
  have hanswer : e.resolve 9 r₁ {} =
      ⟨[.cycle "b"], .value (.array [.action "b", .reference "free"])⟩ := by
    show e.resolveDeep 9 r₁.definitions {} = _
    rw [hdefinitions]
    rfl
  have hclosed : r₁.definitions.Closed (· ∈ ["a", "b", "free"]) := by
    rintro a b ha ⟨d, hd, hb⟩
    have hentry := Definitions.mem_of_expansion hd
    rw [hdefinitions] at hentry
    have hconfined : d.Confined (· ∈ ["a", "b", "free"]) := by
      rcases List.mem_cons.mp hentry with hentry | hentry
      · cases hentry
        decide
      · rcases List.mem_cons.mp hentry with hentry | hentry
        · cases hentry
          decide
        · cases List.mem_singleton.mp hentry
          decide
    exact hconfined b hb
  have hconfined : e.Confined (· ∈ ["a", "b", "free"]) := by decide
  have hagree : ∀ name, r₁.definitions.Reachable e name → r₁.find? name = r₂.find? name := by
    have hall : ∀ name ∈ ["a", "b", "free"], r₁.find? name = r₂.find? name := by decide
    exact fun name hname => hall name (hconfined.of_reachable hclosed hname)
  exact ⟨hagree, hanswer, resolve_reads_reachable_only hagree⟩

end Expr

end Sigil

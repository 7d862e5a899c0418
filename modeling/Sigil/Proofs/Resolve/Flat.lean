import Sigil.Proofs.Resolve.Access
import Sigil.Proofs.Rows
import Sigil.Resolve.Flat

/-!
# Flat resolution, again and again

`flatTimes` is flat resolution applied so many times in a row; a fault at any step is a fault of the
whole. What becomes of a tree in `k` steps is told by what becomes of its parts in `k` steps:

* `flatTimes_plain_iff`: a plain node keeps its shape, and each child takes its `k`
  steps on its own;
* `flatTimes_member_symbolic`: an access to a target that is still symbolic after `k` steps is still
  there, on that target;
* `flatTimes_member_object`: an access to a target that is an object after `k` steps has picked the
  field on the way, and after `k` steps it is what that field of the object is.
-/

namespace Sigil.Expr

variable {definitions : Definitions}

/-! ## 1. One step -/

theorem flatFields_eq (fields : List (String × Expr)) :
    flatFields definitions fields =
      flatItems definitions (fields.map Prod.snd) >>= fun values =>
        .ok ((fields.map Prod.fst).zip values) := by
  induction fields with
  | nil => rfl
  | cons entry fields ih =>
    obtain ⟨key, child⟩ := entry
    simp only [flatFields, List.map_cons, flatItems, ih]
    cases child.flat definitions with
    | error e => rfl
    | ok c => cases flatItems definitions (fields.map Prod.snd) <;> rfl

theorem flatItems_eq_ok_iff {cs rs : List Expr} :
    flatItems definitions cs = .ok rs ↔
      List.Forall₂ (fun c r => c.flat definitions = .ok r) cs rs := by
  induction cs generalizing rs with
  | nil => simp [flatItems, eq_comm]
  | cons c cs ih =>
    simp only [flatItems, bind_eq_ok_iff, ih, List.forall₂_cons_left_iff]
    constructor
    · rintro ⟨r, hr, rs', hrs, h⟩
      cases h
      exact ⟨r, rs', hr, hrs, rfl⟩
    · rintro ⟨r, rs', hr, hrs, rfl⟩
      exact ⟨r, hr, rs', hrs, rfl⟩

theorem flat_symbol {e : Expr} {name : String} (h : e.name? = some name) :
    e.flat definitions = definitions.expansion name >>= fun expanded => .ok (expanded.getD e) := by
  rcases eq_symbol_of_name? h with rfl | rfl <;> rfl

theorem flat_member (target : Expr) (field : String) :
    (member target field).flat definitions =
      target.flat definitions >>= fun target =>
        target.select field >>= fun picked => .ok (picked.getD (.member target field)) := rfl

/-- A plain node is rebuilt over its children, each resolved once. -/
theorem flat_plain {e : Expr} (h : e.isPlain = true) :
    e.flat definitions = flatItems definitions e.children >>= fun cs => .ok (e.rebuild cs) := by
  -- each kind of node writes its own sequence of steps, and all run the children from left to right
  cases e <;> simp only [isPlain, Bool.false_eq_true] at h
  case binary op left right =>
    simp only [flat, children, flatItems]
    cases left.flat definitions with
    | error e => rfl
    | ok l => cases right.flat definitions <;> rfl
  case object fields =>
    simp only [flat, children, flatFields_eq]
    cases flatItems definitions (fields.map Prod.snd) <;> rfl
  case similarity inner =>
    simp only [flat, children, flatItems]
    cases inner.flat definitions <;> rfl
  case difference inner =>
    simp only [flat, children, flatItems]
    cases inner.flat definitions <;> rfl
  all_goals rfl

theorem flat_plain_eq_ok_iff {e r : Expr} (h : e.isPlain = true) :
    e.flat definitions = .ok r ↔
      ∃ cs, List.Forall₂ (fun c d => c.flat definitions = .ok d) e.children cs ∧
        r = e.rebuild cs := by
  rw [flat_plain h, bind_eq_ok_iff]
  simp only [flatItems_eq_ok_iff, Except.ok.injEq]
  exact exists_congr fun cs => and_congr_right fun _ => eq_comm

/-! ## 2. Several steps -/

/-- Flat resolution so many times in a row. -/
def flatTimes (definitions : Definitions) : Nat → Expr → Except ResolveError Expr
  | 0, e => .ok e
  | k + 1, e => e.flat definitions >>= flatTimes definitions k

theorem flatTimes_succ_eq_ok_iff {k : Nat} {e r : Expr} :
    flatTimes definitions (k + 1) e = .ok r ↔
      ∃ d, e.flat definitions = .ok d ∧ flatTimes definitions k d = .ok r := bind_eq_ok_iff

/-- A tree that one step leaves alone is left alone by any number of steps. -/
theorem flatTimes_of_flat_eq_self {e : Expr} (h : e.flat definitions = .ok e) (k : Nat) :
    flatTimes definitions k e = .ok e := by
  induction k with
  | zero => rfl
  | succ k ih => exact flatTimes_succ_eq_ok_iff.mpr ⟨e, h, ih⟩

/-- A plain node keeps its shape, and each child takes the steps on its own. -/
theorem flatTimes_plain_iff {e r : Expr} (h : e.isPlain = true) {k : Nat} :
    flatTimes definitions k e = .ok r ↔
      ∃ cs, List.Forall₂ (fun c d => flatTimes definitions k c = .ok d) e.children cs ∧
        r = e.rebuild cs := by
  -- on the steps; the children go on side by side, since a rebuilt node is a plain one again
  induction k generalizing e r with
  | zero =>
    simp only [flatTimes, Except.ok.injEq, List.forall₂_eq_eq_eq]
    constructor
    · rintro rfl
      exact ⟨_, rfl, (rebuild_children e).symm⟩
    · rintro ⟨_, rfl, rfl⟩
      exact (rebuild_children e).symm
  | succ k ih =>
    simp only [flatTimes_succ_eq_ok_iff, flat_plain_eq_ok_iff h, forall₂_comp_iff]
    constructor
    · rintro ⟨_, ⟨cs, hcs, rfl⟩, hr⟩
      have hlen : cs.length = e.children.length := hcs.length_eq.symm
      obtain ⟨rs, hrs, rfl⟩ := (ih (isPlain_rebuild h hlen)).mp hr
      rw [children_rebuild hlen] at hrs
      exact ⟨rs, ⟨cs, hcs, hrs⟩, rebuild_rebuild hlen (hrs.length_eq ▸ hlen)⟩
    · rintro ⟨rs, ⟨cs, hcs, hrs⟩, rfl⟩
      have hlen : cs.length = e.children.length := hcs.length_eq.symm
      refine ⟨_, ⟨cs, hcs, rfl⟩, (ih (isPlain_rebuild h hlen)).mpr ⟨rs, ?_, ?_⟩⟩
      · rw [children_rebuild hlen]
        exact hrs
      · exact (rebuild_rebuild hlen (hrs.length_eq ▸ hlen)).symm

theorem flatTimes_foreign {k : Nat} {shown : String} {r : Expr}
    (h : flatTimes definitions k (.foreign shown) = .ok r) : r = .foreign shown := by
  cases k with
  | zero => exact (Except.ok.inj h).symm
  | succ k => cases h

/-- What is symbolic after some steps was symbolic all the time. -/
theorem isSymbolic_of_flatTimes {k : Nat} {e r : Expr} (h : flatTimes definitions k e = .ok r)
    (hr : r.isSymbolic = true) : e.isSymbolic = true := by
  cases e using shape_induction with
  | symbol e name hn => exact isSymbolic_of_name? hn
  | member target field => rfl
  | foreign shown =>
    rw [flatTimes_foreign h] at hr
    cases hr
  | plain e he =>
    obtain ⟨cs, hcs, rfl⟩ := (flatTimes_plain_iff he).mp h
    rw [isSymbolic_of_isPlain (isPlain_rebuild he hcs.length_eq.symm)] at hr
    cases hr

/-- An access to a target that stays symbolic stays. -/
theorem flatTimes_member_symbolic {k : Nat} {target result : Expr} (field : String)
    (h : flatTimes definitions k target = .ok result) (hs : result.isSymbolic = true) :
    flatTimes definitions k (.member target field) = .ok (.member result field) := by
  induction k generalizing target with
  | zero =>
    cases h
    rfl
  | succ k ih =>
    obtain ⟨next, hn, hr⟩ := flatTimes_succ_eq_ok_iff.mp h
    have hsel : next.select field = .ok none :=
      select_eq_none_iff.mpr (isSymbolic_of_flatTimes hr hs)
    refine flatTimes_succ_eq_ok_iff.mpr ⟨.member next field, ?_, ih hr⟩
    rw [flat_member, hn, ok_bind, hsel]
    rfl

/-- What an object is after some steps was symbolic before, or an object with the same fields. -/
theorem object_of_flatTimes {k : Nat} {e : Expr} {fields : List (String × Expr)}
    (h : flatTimes definitions k e = .ok (.object fields)) :
    e.isSymbolic = true ∨ ∃ before, e = .object before ∧ ∀ field picked,
      field? fields field = some picked →
        ∃ value, field? before field = some value ∧ flatTimes definitions k value = .ok picked := by
  cases e using shape_induction with
  | symbol e name hn => exact .inl (isSymbolic_of_name? hn)
  | member target field => exact .inl rfl
  | foreign shown => cases flatTimes_foreign h
  | plain e he =>
    obtain ⟨cs, hcs, hr⟩ := (flatTimes_plain_iff he).mp h
    obtain ⟨before, rfl⟩ := object_of_rebuild hr.symm
    cases hr
    exact .inr ⟨before, rfl, fun field picked hp => field?_zip hcs hp⟩

/-- An access to a target that becomes an object picks the field on the way. -/
theorem flatTimes_member_object {k : Nat} {target picked : Expr} {fields : List (String × Expr)}
    {field : String} (h : flatTimes definitions (k + 1) target = .ok (.object fields))
    (hp : field? fields field = some picked) :
    flatTimes definitions (k + 1) (.member target field) = .ok picked := by
  induction k generalizing target with
  | zero =>
    obtain ⟨next, hn, hr⟩ := flatTimes_succ_eq_ok_iff.mp h
    cases hr
    refine flatTimes_succ_eq_ok_iff.mpr ⟨picked, ?_, rfl⟩
    rw [flat_member, hn, ok_bind, select_eq_some_iff.mpr ⟨fields, rfl, hp⟩]
    rfl
  | succ k ih =>
    obtain ⟨next, hn, hr⟩ := flatTimes_succ_eq_ok_iff.mp h
    -- the target may turn into the object only now, or it is the object already and its field goes
    -- on
    rcases object_of_flatTimes hr with hs | ⟨before, rfl, hb⟩
    · refine flatTimes_succ_eq_ok_iff.mpr ⟨.member next field, ?_, ih hr⟩
      rw [flat_member, hn, ok_bind, select_eq_none_iff.mpr hs]
      rfl
    · obtain ⟨value, hv, hk⟩ := hb field picked hp
      refine flatTimes_succ_eq_ok_iff.mpr ⟨value, ?_, hk⟩
      rw [flat_member, hn, ok_bind, select_eq_some_iff.mpr ⟨before, rfl, hv⟩]
      rfl

end Sigil.Expr

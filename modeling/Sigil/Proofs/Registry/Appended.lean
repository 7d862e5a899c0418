import Sigil.Proofs.Registry.Merge

/-!
# Layers are one source

Putting one source on top of another and putting on top both in one come to the same
(`overlay_append`), errors included, and a registry that is built anew from its entries is what it
was. So an effective registry is the registry of its layers, written one after the other as a single
source (`ofLayers_eq_ofSource`). Of such a source either the first row that is no definition is the
error, or the registry holds what its rows say (`ofSource_eq_ok_iff`): each name once, in the order
of first mention, with its last text. How the layers are bracketed does not count (`ofTwo_assoc`).
-/

namespace Sigil

/-! ## 1. Rows -/

namespace Source

/-- Every row is a name and a text. -/
def IsValid (source : Source) : Prop :=
  ∀ row ∈ source, ∃ name text : String, row = [.string name, .string text]

/-- This is what is wrong with the first row that is no definition. -/
def FirstFault (source : Source) (error : SourceError) : Prop :=
  ∃ (before : Source) (row : List Value) (after : Source),
    source = before ++ row :: after ∧ before.IsValid ∧ definition row = .error error

variable {x y source : Source}

theorem definition_eq_ok_iff {row : List Value} {pair : String × String} :
    definition row = .ok pair ↔ row = [.string pair.1, .string pair.2] := by
  constructor
  · intro h
    unfold definition at h
    split at h
    · cases h
      rfl
    · cases h
    · split at h <;> cases h
  · rintro rfl
    rfl

theorem isValid_iff : source.IsValid ↔ ∃ pairs, source = ofPairs pairs := by
  constructor
  · intro h
    induction source with
    | nil => exact ⟨[], rfl⟩
    | cons row source ih =>
      obtain ⟨⟨name, text, rfl⟩, hrest⟩ := List.forall_mem_cons.mp h
      obtain ⟨pairs, rfl⟩ := ih hrest
      exact ⟨(name, text) :: pairs, rfl⟩
  · rintro ⟨pairs, rfl⟩ row hrow
    obtain ⟨pair, -, rfl⟩ := List.mem_map.mp hrow
    exact ⟨pair.1, pair.2, rfl⟩

theorem IsValid.append (hx : x.IsValid) (hy : y.IsValid) : IsValid (x ++ y) :=
  List.forall_mem_append.mpr ⟨hx, hy⟩

/-- One source after the other is read in this order, up to the first error. -/
theorem definitions_append (x y : Source) :
    definitions (x ++ y) = do return (← x.definitions) ++ (← y.definitions) := by
  induction x with
  | nil => cases hy : y.definitions <;> exact hy
  | cons row rows ih =>
    rw [List.cons_append, definitions, definitions, ih]
    cases definition row with
    | error error => rfl
    | ok pair =>
      cases definitions rows with
      | error error => rfl
      | ok front => cases y.definitions <;> rfl

theorem definitions_eq_ok_iff {pairs : List (String × String)} :
    source.definitions = .ok pairs ↔ source = ofPairs pairs := by
  constructor
  · intro h
    induction source generalizing pairs with
    | nil =>
      cases h
      rfl
    | cons row source ih =>
      obtain ⟨pair, hrow, hrest⟩ := bind_eq_ok_iff.mp h
      obtain ⟨rest, hrows, hpairs⟩ := bind_eq_ok_iff.mp hrest
      cases hpairs
      rw [definition_eq_ok_iff.mp hrow, ih hrows]
      rfl
  · rintro rfl
    exact definitions_ofPairs pairs

theorem definitions_eq_error_iff {error : SourceError} :
    source.definitions = .error error ↔ source.FirstFault error := by
  constructor
  · intro h
    induction source with
    | nil => cases h
    | cons row source ih =>
      rcases bind_eq_error_iff.mp h with hrow | ⟨pair, hrow, hrest⟩
      · exact ⟨[], row, source, rfl, List.forall_mem_nil _, hrow⟩
      · rcases bind_eq_error_iff.mp hrest with hrows | ⟨_, _, hpairs⟩
        -- the rows before the first bad one are valid, so this one joins them
        · obtain ⟨before, bad, after, rfl, hbefore, hbad⟩ := ih hrows
          have hvalid : ∃ name text : String, row = [.string name, .string text] :=
            ⟨pair.1, pair.2, definition_eq_ok_iff.mp hrow⟩
          exact ⟨row :: before, bad, after, rfl, List.forall_mem_cons.mpr ⟨hvalid, hbefore⟩, hbad⟩
        · cases hpairs
  · rintro ⟨before, row, after, rfl, hbefore, hrow⟩
    obtain ⟨pairs, rfl⟩ := isValid_iff.mp hbefore
    rw [definitions_append, definitions_ofPairs, definitions, hrow]
    rfl

end Source

namespace Registry

/-! ## 2. One source after the other -/

variable {r : Registry} {x y z source : Source}

theorem eq_of_entries {a b : Registry} (h : a.entries = b.entries) : a = b := by
  cases a
  cases b
  cases h
  rfl

theorem overlay_ofPairs (r : Registry) (pairs : List (String × String)) :
    r.overlay (.ofPairs pairs) = .ok (r.putAll pairs) := by
  unfold overlay
  rw [Source.definitions_ofPairs]
  rfl

theorem overlay_eq_ok_iff {base : Registry} :
    base.overlay source = .ok r ↔ ∃ pairs, source = .ofPairs pairs ∧ r = base.putAll pairs := by
  constructor
  · intro h
    obtain ⟨pairs, hpairs, hr⟩ := bind_eq_ok_iff.mp h
    exact ⟨pairs, Source.definitions_eq_ok_iff.mp hpairs, (Except.ok.inj hr).symm⟩
  · rintro ⟨pairs, rfl, rfl⟩
    exact overlay_ofPairs base pairs

theorem overlay_eq_error_iff {base : Registry} {error : SourceError} :
    base.overlay source = .error error ↔ source.FirstFault error := by
  rw [← Source.definitions_eq_error_iff]
  constructor
  · intro h
    rcases bind_eq_error_iff.mp h with hrows | ⟨_, _, hr⟩
    · exact hrows
    · cases hr
  · exact fun h => bind_eq_error_iff.mpr (.inl h)

/-- **Two sources on top are both of them in one.** -/
theorem overlay_append (r : Registry) (x y : Source) :
    r.overlay (x ++ y) = (do
      let r ← r.overlay x
      r.overlay y) := by
  unfold overlay
  rw [Source.definitions_append]
  cases x.definitions with
  | error error => rfl
  | ok front =>
    cases y.definitions with
    | error error => rfl
    | ok back =>
      exact congrArg Except.ok (eq_of_entries (Entries.putAll_append front back r.entries))

/-- One source on top of another is the one after the other. -/
theorem ofTwo_eq_ofSource (x y : Source) : ofTwo x y = ofSource (x ++ y) :=
  (overlay_append empty x y).symm

/-- In place of a source there may stand the registry that is made from it. -/
theorem overlay_toSource (h : ofSource source = .ok r) (base : Registry) :
    base.overlay r.toSource = base.overlay source := by
  obtain ⟨pairs, rfl, rfl⟩ := overlay_eq_ok_iff.mp h
  unfold toSource
  rw [overlay_ofPairs, overlay_ofPairs]
  exact congrArg Except.ok (eq_of_entries (Entries.putAll_putAll pairs base.distinct))

theorem ofTwo_toSource_left (h : ofSource source = .ok r) (top : Source) :
    ofTwo r.toSource top = ofTwo source top := by
  unfold ofTwo
  rw [ofSource_toSource, h]

theorem ofTwo_toSource_right (h : ofSource source = .ok r) (base : Source) :
    ofTwo base r.toSource = ofTwo base source := bind_congr (overlay_toSource h)

/-- A source on top of a registry that is read as a source itself; what comes out is built
    anew from its entries. -/
def rebuiltWith (r : Registry) (source : Source) : Except SourceError Registry := do
  let both ← ofTwo r.toSource source
  ofSource both.toSource

/-- Building a registry anew changes nothing. -/
theorem rebuiltWith_eq_overlay (r : Registry) (source : Source) :
    r.rebuiltWith source = r.overlay source := by
  unfold rebuiltWith ofTwo
  rw [ofSource_toSource]
  show r.overlay source >>= _ = _
  cases r.overlay source with
  | error error => rfl
  | ok both => exact ofSource_toSource both

/-- **Layer after layer is one source**, however many there are. -/
theorem foldlM_rebuiltWith (layers : List Source) (r : Registry) :
    layers.foldlM rebuiltWith r = r.overlay layers.flatten := by
  induction layers generalizing r with
  | nil => rfl
  | cons layer layers ih =>
    rw [List.foldlM_cons, List.flatten_cons, overlay_append, rebuiltWith_eq_overlay]
    exact bind_congr ih

theorem foldlM_rebuiltWith_ofSource (base : Source) (layers : List Source) :
    (do
      let r ← ofSource base
      layers.foldlM rebuiltWith r) = ofSource (base :: layers).flatten := by
  rw [List.flatten_cons, ← ofTwo_eq_ofSource]
  exact bind_congr (foldlM_rebuiltWith layers)

/-! ## 3. What the registry of a source holds -/

/-- What a registry holds that is made from these definitions: each name once, in the order of first
    mention, with its last text. -/
structure Holds (pairs : List (String × String)) (r : Registry) : Prop where
  names : r.names = (pairs.map Prod.fst).eraseDups
  texts : ∀ name text, r.find? name = some text ↔
    ∃ before after, pairs = before ++ (name, text) :: after ∧ name ∉ after.map Prod.fst

theorem holds_putAll (pairs : List (String × String)) : (empty.putAll pairs).Holds pairs := by
  refine ⟨Entries.map_fst_putAll pairs, fun name text => ?_⟩
  rw [← Entries.find?_reverse_eq_some_iff, ← (Entries.isTable_putAll pairs).values name]
  rfl

/-- The definitions leave nothing open. -/
theorem Holds.unique {pairs : List (String × String)} {a b : Registry} (ha : a.Holds pairs)
    (hb : b.Holds pairs) : a = b := by
  have hvalues (name : String) : a.find? name = b.find? name :=
    Option.ext fun text => (ha.texts name text).trans (hb.texts name text).symm
  exact eq_of_entries (Entries.eq_of_find? (ha.names.trans hb.names.symm) a.distinct hvalues)

theorem ofSource_eq_ok_iff :
    ofSource source = .ok r ↔ ∃ pairs, source = .ofPairs pairs ∧ r.Holds pairs := by
  refine overlay_eq_ok_iff.trans (exists_congr fun pairs => and_congr_right fun _ => ?_)
  exact ⟨fun h => h ▸ holds_putAll pairs, fun h => h.unique (holds_putAll pairs)⟩

theorem exists_of_isValid (h : source.IsValid) : ∃ r, ofSource source = .ok r := by
  obtain ⟨pairs, rfl⟩ := Source.isValid_iff.mp h
  exact ⟨_, overlay_ofPairs empty pairs⟩

/-- No name is lost. -/
theorem contains_of_row {name : String} (h : ofSource source = .ok r) {row : List Value}
    (hrow : row ∈ source) (hname : row.head? = some (.string name)) : r.contains name = true := by
  obtain ⟨pairs, rfl, hholds⟩ := ofSource_eq_ok_iff.mp h
  obtain ⟨pair, hpair, rfl⟩ := List.mem_map.mp hrow
  cases hname
  have hmem : pair.1 ∈ r.names := by
    rw [hholds.names, List.mem_eraseDups]
    exact List.mem_map_of_mem hpair
  exact Entries.isSome_find?_iff.mpr hmem

/-! ## 4. Layers -/

/-- Sources can be put together from either end. -/
theorem ofTwo_assoc (hx : x.IsValid) (hy : y.IsValid) (hz : z.IsValid) :
    ∃ r,
      (do
        let below ← ofTwo x y
        ofTwo below.toSource z) = .ok r ∧
      (do
        let above ← ofTwo y z
        ofTwo x above.toSource) = .ok r := by
  obtain ⟨below, hbelow⟩ := exists_of_isValid (hx.append hy)
  obtain ⟨above, habove⟩ := exists_of_isValid (hy.append hz)
  obtain ⟨r, hr⟩ := exists_of_isValid ((hx.append hy).append hz)
  refine ⟨r, ?_, ?_⟩
  · rw [ofTwo_eq_ofSource, hbelow, ok_bind, ofTwo_toSource_left hbelow, ofTwo_eq_ofSource, hr]
  · rw [ofTwo_eq_ofSource, habove, ok_bind, ofTwo_toSource_right habove, ofTwo_eq_ofSource,
      ← List.append_assoc, hr]

/-- The layers as one source, from the bottom to the top. -/
def Layers.appended (layers : Layers) : Source :=
  layers.builtins ++ layers.schema ++ layers.inline ++ layers.userTypes

theorem Layers.appended_eq_flatten (layers : Layers) :
    layers.appended =
      [layers.builtins, layers.schema, layers.inline, layers.userTypes].flatten := by
  simp [appended]

/-- **The effective registry is the registry of the layers as one source.** -/
theorem ofLayers_eq_ofSource (layers : Layers) : ofLayers layers = ofSource layers.appended := by
  unfold ofLayers ofSource Layers.appended
  simp only [overlay_append, bind_assoc]

/-- **Layers are one source.** The effective registry, with or without building it anew for each
    layer, is the registry of all layers one after the other. Where a row of them is no definition,
    the first such row is the error; else the registry holds what the rows say, and no name of a
    layer is lost. And three sources can be put together from either end. -/
theorem layers_are_one_source (layers : Layers) :
    (do
      let r ← ofSource layers.builtins
      [layers.schema, layers.inline, layers.userTypes].foldlM rebuiltWith r) = ofLayers layers ∧
    ofLayers layers = ofSource layers.appended ∧
    (∀ error, ofLayers layers = .error error ↔ layers.appended.FirstFault error) ∧
    (∀ r, ofLayers layers = .ok r ↔ ∃ pairs, layers.appended = .ofPairs pairs ∧ r.Holds pairs) ∧
    (∀ r, ofLayers layers = .ok r →
      ∀ layer ∈ [layers.builtins, layers.schema, layers.inline, layers.userTypes], ∀ row ∈ layer,
        ∀ name, row.head? = some (.string name) → r.contains name = true) ∧
    ∀ x y z : Source, x.IsValid → y.IsValid → z.IsValid →
      ∃ r,
        (do
          let below ← ofTwo x y
          ofTwo below.toSource z) = .ok r ∧
        (do
          let above ← ofTwo y z
          ofTwo x above.toSource) = .ok r := by
  have hlayers := ofLayers_eq_ofSource layers
  refine ⟨?_, hlayers, fun error => ?_, fun r => ?_, fun r h layer hlayer row hrow name hname => ?_,
    fun x y z hx hy hz => ofTwo_assoc hx hy hz⟩
  -- folding the layers one by one is putting their rows in a row
  · rw [hlayers, layers.appended_eq_flatten]
    exact foldlM_rebuiltWith_ofSource _ _
  · rw [hlayers]
    exact overlay_eq_error_iff
  · rw [hlayers]
    exact ofSource_eq_ok_iff
  · rw [hlayers] at h
    -- a row of a layer is a row of the one source
    have hmem : row ∈ layers.appended := by
      rw [layers.appended_eq_flatten]
      exact List.mem_flatten_of_mem hlayer hrow
    exact contains_of_row h hmem hname

/-- Names that come back within a layer and across layers, rows that are no definitions in two
    layers, and three sources with names in common. -/
theorem repeated_names_are_one_source :
    let layers : Layers :=
      ⟨.ofPairs [("x", "0"), ("y", "0")], .ofPairs [("y", "1"), ("z", "1"), ("y", "2")],
      [], .ofPairs [("x", "3")]⟩
    let entries := [("x", "3"), ("y", "2"), ("z", "1")]
    let faulty : Layers :=
      ⟨.ofPairs [("x", "0")], [[.string "y", .string "1"], [.string "z", .null]],
      [[.null, .string "2"]], []⟩
    let top : Source := .ofPairs [("z", "4"), ("x", "4")]
    (∃ r, ofLayers layers = .ok r ∧ r.entries = entries ∧
      [.string "z", .string "1"] ∈ layers.schema ∧ r.contains "z" = true) ∧
    ofLayers faulty = .error (.notTexts (.string "z") .null) ∧
    layers.builtins.IsValid ∧ layers.schema.IsValid ∧ top.IsValid ∧
      ∃ r,
        (do
          let below ← ofTwo layers.builtins layers.schema
          ofTwo below.toSource top) = .ok r ∧
        (do
          let above ← ofTwo layers.schema top
          ofTwo layers.builtins above.toSource) = .ok r := by
  intro layers entries faulty top
  -- rows that are made of pairs are valid
  have hvalid (pairs : List (String × String)) : Source.IsValid (.ofPairs pairs) :=
    Source.isValid_iff.mpr ⟨pairs, rfl⟩
  obtain ⟨-, -, -, -, hkept, hassoc⟩ := layers_are_one_source layers
  obtain ⟨-, -, hfault, -⟩ := layers_are_one_source faulty
  have hregistry : ofLayers layers = .ok _ := ofLayers_ofPairs _ _ [] _
  have hrow : [.string "z", .string "1"] ∈ layers.schema :=
    List.mem_cons_of_mem _ List.mem_cons_self
  have hlayer : layers.schema ∈ [layers.builtins, layers.schema, layers.inline, layers.userTypes] :=
    List.mem_cons_of_mem _ List.mem_cons_self
  refine ⟨⟨_, hregistry, by decide, hrow, hkept _ hregistry _ hlayer _ hrow "z" rfl⟩,
    (hfault _).mpr ⟨.ofPairs [("x", "0"), ("y", "1")], _, _, rfl, hvalid _, rfl⟩,
    hvalid _, hvalid _, hvalid _, hassoc _ _ _ (hvalid _) (hvalid _) (hvalid _)⟩

end Registry

end Sigil

import Sigil.Proofs.Rows
import Sigil.Proofs.Text.Utf8
import Sigil.Schema.Load

/-!
# What loading a schema lets out

Each step of loading a schema stands in a handler for one class of exceptions. What is raised by the
steps and named by no handler is listed here: for a value (`ValueRaises`), a text (`TextRaises`) and
a file (`FileRaises`). There is nothing else: a schema comes out, or a fault of the schema, exactly
if nothing is let out (`answered_ofText_iff`, `answered_ofPath_iff`).
-/

namespace Sigil

/-! ## 1. Handlers -/

/-- The handler lets the exception through. -/
def Exception.Passes (e : Exception) (handler : Exception → Raised) : Prop := handler e = .outside e

/-- A handler that names some class: what it does not let through becomes a fault of the schema. -/
def OnlySchema (handler : Exception → Raised) : Prop :=
  ∀ e, e.Passes handler ∨ ∃ fault, handler e = .ofSchema fault

theorem onlySchema_unreadable : OnlySchema Raised.unreadableSchema := by
  intro e
  cases e with
  | system why => exact .inr ⟨_, rfl⟩
  | _ => exact .inl rfl

theorem onlySchema_malformed : OnlySchema Raised.malformedSchema := by
  intro e
  cases e with
  | yaml why => exact .inr ⟨_, rfl⟩
  | _ => exact .inl rfl

theorem onlySchema_invalid : OnlySchema Raised.invalidSchema := by
  intro e
  cases e with
  | fields faults why => exact .inr ⟨_, rfl⟩
  | _ => exact .inl rfl

/-- What comes out of a handler as it was is what the handler lets through. -/
theorem handled_eq_outside_iff {α : Type} {handler : Exception → Raised} (h : OnlySchema handler)
    {x : Except Exception α} {e : Exception} :
    x.mapError handler = .error (.outside e) ↔ x = .error e ∧ e.Passes handler := by
  rw [mapError_eq_error_iff]
  constructor
  · rintro ⟨cause, hcause, houtside⟩
    rcases h cause with hpasses | ⟨fault, hfault⟩
    · cases hpasses.symm.trans houtside
      exact ⟨hcause, hpasses⟩
    · cases hfault.symm.trans houtside
  · exact fun ⟨hcause, hpasses⟩ => ⟨e, hcause, hpasses⟩

namespace Schema

/-! ## 2. Answers -/

/-- A schema comes out, or a fault of it. -/
def Answered (x : Except Raised Schema) : Prop :=
  (∃ schema, x = .ok schema) ∨ ∃ fault, x = .error (.ofSchema fault)

/-- A schema comes out, or a fault of it, or an exception. -/
def Confined (x : Except Raised Schema) : Prop := Answered x ∨ ∃ e, x = .error (.outside e)

theorem answered_iff {x : Except Raised Schema} (h : Confined x) :
    Answered x ↔ ∀ e, x ≠ .error (.outside e) := by
  constructor
  · rintro (⟨schema, rfl⟩ | ⟨fault, rfl⟩) e heq <;> cases heq
  · exact fun hnone => h.resolve_right fun ⟨e, heq⟩ => hnone e heq

theorem confined_handled {handler : Exception → Raised} (h : OnlySchema handler)
    (x : Except Exception Schema) : Confined (x.mapError handler) := by
  cases x with
  | ok schema => exact .inl (.inl ⟨schema, rfl⟩)
  | error e =>
    rcases h e with hpasses | ⟨fault, hfault⟩
    · exact .inr ⟨e, congrArg Except.error hpasses⟩
    · exact .inl (.inr ⟨fault, congrArg Except.error hfault⟩)

theorem confined_bind {α : Type} {handler : Exception → Raised} (h : OnlySchema handler)
    {x : Except Exception α} {f : α → Except Raised Schema} (hf : ∀ a, Confined (f a)) :
    Confined (x.mapError handler >>= f) := by
  cases x with
  | ok a => exact hf a
  | error e =>
    rcases h e with hpasses | ⟨fault, hfault⟩
    · exact .inr ⟨e, congrArg Except.error hpasses⟩
    · exact .inl (.inr ⟨fault, congrArg Except.error hfault⟩)

/-! ## 3. Values -/

variable (loader : Loader)

/-- The entries have a version with this text, and it is not refused. -/
structure IsVersioned (entries : List (Key × Value)) (text : String) : Prop where
  given : ∃ version, Value.find? "version" entries = some version ∧ version ≠ .null ∧
    loader.textOf version = .ok text
  known : checkVersion text = .ok ()

/-- Making a schema of a value raises this, and no handler names it. -/
inductive ValueRaises : Value → Exception → Prop
  /-- The version has no text. -/
  | version {entries : List (Key × Value)} {version : Value} {e : Exception}
    (given : Value.find? "version" entries = some version) (there : version ≠ .null)
    (raised : loader.textOf version = .error e) : ValueRaises (.map entries) e
  /-- A key is no text. -/
  | key {entries : List (Key × Value)} {text : String} (versioned : IsVersioned loader entries text)
    {entry : Key × Value} (mem : entry ∈ entries) (unnamed : ∀ name, entry.1 ≠ Key.text name) :
    ValueRaises (.map entries) unnamedField
  /-- The check of the fields raises something else than their faults. -/
  | fields {entries : List (Key × Value)} {text : String} {fields : List (String × Value)}
    {e : Exception} (versioned : IsVersioned loader entries text)
    (named : namedFields? entries = some fields)
    (raised : loader.check scalarsToText checkNames
      (Entries.put "version" (.string text) fields) = .error e)
    (passes : e.Passes Raised.invalidSchema) : ValueRaises (.map entries) e

theorem namedFields?_eq_none_iff {entries : List (Key × Value)} :
    namedFields? entries = none ↔ ∃ entry ∈ entries, ∀ name, entry.1 ≠ Key.text name := by
  induction entries with
  | nil => simp [namedFields?]
  | cons entry entries ih =>
    obtain ⟨key, value⟩ := entry
    rw [List.exists_mem_cons_iff, ← ih]
    -- the first key that is no text decides, and later ones are not looked at
    by_cases hnamed : ∃ name, key = Key.text name
    · obtain ⟨name, rfl⟩ := hnamed
      have hhead : ¬ ∀ name', Key.text name ≠ Key.text name' := fun h => h name rfl
      rw [or_iff_right hhead]
      show (namedFields? entries >>= fun fields => some ((name, value) :: fields)) = none ↔ _
      cases namedFields? entries <;> simp
    · have hkey : ∀ name, key ≠ Key.text name := fun name h => hnamed ⟨name, h⟩
      refine iff_of_true ?_ (.inl hkey)
      unfold namedFields?
      split
      · next h => cases h
      · next name _ _ h =>
        cases h
        exact absurd rfl (hkey name)
      · rfl

/-- Without a version there is a fault of the schema. -/
theorem ofValue_unversioned {entries : List (Key × Value)}
    (h : ∀ version, Value.find? "version" entries = some version → version = .null) :
    ofValue loader (.map entries) = .error (.ofSchema .noVersion) := by
  unfold ofValue
  dsimp only
  split
  · rfl
  · rfl
  · next version hnot found =>
    cases h version found
    exact absurd rfl hnot

/-- The steps from a version on. -/
theorem ofValue_versioned {entries : List (Key × Value)} {version : Value}
    (given : Value.find? "version" entries = some version) (there : version ≠ .null) :
    ofValue loader (.map entries) = (do
      let text ← (loader.textOf version).mapError Raised.outside
      (checkVersion text).mapError Raised.ofSchema
      ofFields loader text entries) := by
  unfold ofValue
  dsimp only
  rw [given]
  split
  · next h => cases h
  · next h => exact absurd (Option.some.inj h) there
  · next h =>
    cases h
    rfl

variable {loader} {entries : List (Key × Value)} {value version : Value} {text : String}
  {cs : List Char} {path : String} {e : Exception}

theorem ofFields_eq_outside_iff :
    ofFields loader text entries = .error (.outside e) ↔
      (e = unnamedField ∧ namedFields? entries = none) ∨
        ∃ fields, namedFields? entries = some fields ∧ e.Passes Raised.invalidSchema ∧
          loader.check scalarsToText checkNames
            (Entries.put "version" (.string text) fields) = .error e := by
  unfold ofFields
  cases namedFields? entries with
  | none => simp [eq_comm]
  | some fields =>
    dsimp only
    rw [handled_eq_outside_iff onlySchema_invalid]
    simp [and_comm]

/-- **What is raised about a value** is what is listed. -/
theorem ofValue_eq_outside_iff :
    ofValue loader value = .error (.outside e) ↔ ValueRaises loader value e := by
  constructor
  · intro h
    cases value with
    | scalar s => cases h
    | list items => cases h
    | map entries =>
      by_cases hthere : ∃ version, Value.find? "version" entries = some version ∧ version ≠ .null
      · obtain ⟨version, hversion, hthere⟩ := hthere
        rw [ofValue_versioned loader hversion hthere] at h
        -- the version has no text, it is refused, or the fields are at fault
        rcases bind_eq_error_iff.mp h with htext | ⟨text, htext, h⟩
        · obtain ⟨_, htext, ⟨⟩⟩ := mapError_eq_error_iff.mp htext
          exact .version hversion hthere htext
        rcases bind_eq_error_iff.mp h with hrefused | ⟨⟨⟩, hknown, h⟩
        · obtain ⟨_, _, ⟨⟩⟩ := mapError_eq_error_iff.mp hrefused
        have versioned : IsVersioned loader entries text :=
          ⟨⟨version, hversion, hthere, mapError_eq_ok_iff.mp htext⟩, mapError_eq_ok_iff.mp hknown⟩
        rcases ofFields_eq_outside_iff.mp h with
          ⟨rfl, hunnamed⟩ | ⟨fields, hnamed, hpasses, hfields⟩
        · obtain ⟨entry, hmem, hkey⟩ := namedFields?_eq_none_iff.mp hunnamed
          exact .key versioned hmem hkey
        · exact .fields versioned hnamed hfields hpasses
      · rw [ofValue_unversioned loader fun version hversion =>
          not_not.mp fun hne => hthere ⟨version, hversion, hne⟩] at h
        cases h
  · intro h
    cases h with
    | version given there raised =>
      rw [ofValue_versioned loader given there, raised]
      rfl
    | key versioned mem unnamed =>
      obtain ⟨⟨version, given, there, text⟩, known⟩ := versioned
      rw [ofValue_versioned loader given there, text]
      show ((checkVersion _).mapError Raised.ofSchema >>= _) = _
      rw [known]
      exact ofFields_eq_outside_iff.mpr
        (.inl ⟨rfl, namedFields?_eq_none_iff.mpr ⟨_, mem, unnamed⟩⟩)
    | fields versioned named raised passes =>
      obtain ⟨⟨version, given, there, text⟩, known⟩ := versioned
      rw [ofValue_versioned loader given there, text]
      show ((checkVersion _).mapError Raised.ofSchema >>= _) = _
      rw [known]
      exact ofFields_eq_outside_iff.mpr (.inr ⟨_, named, passes, raised⟩)

theorem confined_ofValue (value : Value) : Confined (ofValue loader value) := by
  have honly : OnlySchema Raised.outside := fun _ => .inl rfl
  -- every end but one is a complaint about the shape, and that one is handled by the caller
  cases value with
  | scalar s => exact .inl (.inr ⟨_, rfl⟩)
  | list items => exact .inl (.inr ⟨_, rfl⟩)
  | map entries =>
    unfold ofValue
    dsimp only
    split
    · exact .inl (.inr ⟨_, rfl⟩)
    · exact .inl (.inr ⟨_, rfl⟩)
    · refine confined_bind honly fun text => ?_
      cases checkVersion text with
      | error fault => exact .inl (.inr ⟨fault, rfl⟩)
      | ok _ =>
        show Confined (ofFields loader text entries)
        unfold ofFields
        split
        · exact .inr ⟨_, rfl⟩
        · exact confined_handled onlySchema_invalid _

/-! ## 4. Texts -/

variable (loader) in
/-- Making a schema of a text raises this, and no handler names it. -/
inductive TextRaises (cs : List Char) : Exception → Prop
  /-- The loader of YAML raises something else than that the text is none. -/
  | loading {e : Exception} (raised : loader.load cs = .error e)
    (passes : e.Passes Raised.malformedSchema) : TextRaises cs e
  | value {value : Value} {e : Exception} (loaded : loader.load cs = .ok value)
    (raises : ValueRaises loader value e) : TextRaises cs e

/-- **What is raised about a text** is what is listed. -/
theorem ofText_eq_outside_iff :
    ofText loader cs = .error (.outside e) ↔ TextRaises loader cs e := by
  unfold ofText
  rw [bind_eq_error_iff, handled_eq_outside_iff onlySchema_malformed]
  constructor
  · rintro (⟨raised, passes⟩ | ⟨value, loaded, h⟩)
    · exact .loading raised passes
    · exact .value (mapError_eq_ok_iff.mp loaded) (ofValue_eq_outside_iff.mp h)
  · rintro (⟨raised, passes⟩ | ⟨loaded, raises⟩)
    · exact .inl ⟨raised, passes⟩
    · exact .inr ⟨_, mapError_eq_ok_iff.mpr loaded, ofValue_eq_outside_iff.mpr raises⟩

theorem confined_ofText (cs : List Char) : Confined (ofText loader cs) :=
  confined_bind onlySchema_malformed confined_ofValue

variable (loader) in
/-- Making a schema of what stands under a path raises this, and no handler names it. -/
inductive FileRaises (path : String) : Exception → Prop
  /-- The file is no text. -/
  | undecodable {bytes : List UInt8} {why : Text.Utf8.DecodeError}
    (file : loader.entryAt path = .file bytes) (broken : Text.Utf8.decode bytes = .error why) :
    FileRaises path (.notText why)
  | text {cs : List Char} {e : Exception} (read : (loader.entryAt path).text path = .ok cs)
    (raises : TextRaises loader cs e) : FileRaises path e

end Schema

/-- What is raised when an entry is read is of the system, or the entry is a file that
    is no text. -/
theorem Entry.text_eq_error_iff {entry : Entry} {path : String} {e : Exception} :
    entry.text path = .error e ↔ (∃ why, e = .system why ∧ entry.text path = .error e) ∨
      ∃ bytes why, entry = .file bytes ∧ Text.Utf8.decode bytes = .error why ∧
        e = .notText why := by
  constructor
  · intro h
    -- only a file has bytes to decode; every other entry is refused by the system
    cases entry with
    | file bytes =>
      refine .inr ⟨bytes, ?_⟩
      unfold Entry.text File.text at h
      dsimp only at h
      split at h
      · cases h
      · next why hwhy =>
        cases h
        exact ⟨why, rfl, hwhy, rfl⟩
    | _ => cases h; exact .inl ⟨_, rfl, rfl⟩
  · rintro (⟨_, -, h⟩ | ⟨bytes, why, rfl, hwhy, rfl⟩)
    · exact h
    · unfold Entry.text File.text
      dsimp only
      rw [hwhy]

namespace Schema

variable {loader : Loader} {path : String} {e : Exception}

/-- **What is raised about a file** is what is listed. -/
theorem ofPath_eq_outside_iff :
    ofPath loader path = .error (.outside e) ↔ FileRaises loader path e := by
  unfold ofPath
  rw [bind_eq_error_iff, handled_eq_outside_iff onlySchema_unreadable]
  constructor
  · rintro (⟨raised, passes⟩ | ⟨cs, read, h⟩)
    · rcases Entry.text_eq_error_iff.mp raised with ⟨why, rfl, -⟩ | ⟨bytes, why, file, broken, rfl⟩
      · cases passes
      · exact .undecodable file broken
    · exact .text (mapError_eq_ok_iff.mp read) (ofText_eq_outside_iff.mp h)
  · rintro (⟨file, broken⟩ | ⟨read, raises⟩)
    · exact .inl ⟨Entry.text_eq_error_iff.mpr (.inr ⟨_, _, file, broken, rfl⟩), rfl⟩
    · exact .inr ⟨_, mapError_eq_ok_iff.mpr read, ofText_eq_outside_iff.mpr raises⟩

theorem confined_ofPath (path : String) : Confined (ofPath loader path) :=
  confined_bind onlySchema_unreadable confined_ofText

/-- **What stands under a path is answered** with a schema or a fault of it unless something is let
    out. -/
theorem answered_ofPath_iff : Answered (ofPath loader path) ↔ ∀ e, ¬ FileRaises loader path e :=
  (answered_iff (confined_ofPath path)).trans
    (forall_congr' fun _ => not_congr ofPath_eq_outside_iff)

/-- A file that is no text is not answered. -/
theorem not_answered_of_invalid {bytes : List UInt8} (file : loader.entryAt path = .file bytes)
    (invalid : ¬ bytes.toByteArray.IsValidUTF8) : ¬ Answered (ofPath loader path) := by
  rw [answered_ofPath_iff]
  intro hnone
  cases hdecode : Text.Utf8.decode bytes with
  | ok cs => exact invalid (Text.Utf8.exists_decode_iff.mp ⟨cs, hdecode⟩)
  | error why => exact hnone _ (.undecodable file hdecode)

end Schema

end Sigil

import Sigil.Command.Perform
import Sigil.Outer.Platform
import Sigil.Proofs.Command.Run
import Sigil.Proofs.Document.Declared
import Sigil.Proofs.Registry.Merge
import Sigil.Proofs.Resolve.Relevance

/-!
# Sessions and documents

A session puts each declaration on top of what is there, whatever its kind
(`converse_of_declarations`); in a document the user types lie above all inline definitions. So the
two agree on a name unless its last declaration is an inline one behind a declaration of the same
name as a user type, with another text (`Overtaken`); and they resolve an expression alike if no
such name can be reached from it (`session_and_document_agree`).

All of this holds whatever the program is run with. Only the examples at the end run command lines,
on the platform that is supplied.
-/

namespace Sigil

open Declaration (entry ofKind)

/-! ## 1. Last declarations -/

namespace Declaration

/-- The last declaration of a name. -/
def last? (name : String) (ds : List Declaration) : Option Declaration :=
  ds.reverse.find? fun d => d.name == name

/-- The text that the last declaration of a name gives it. -/
def lastText? (name : String) (ds : List Declaration) : Option String := (last? name ds).map text

/-- A name is declared as a user type, and later on as an inline definition with another text. -/
def Overtaken (ds : List Declaration) (name : String) : Prop :=
  ∃ d t, last? name ds = some d ∧ last? name (ofKind true ds) = some t ∧ d.text ≠ t.text

theorem find?_reverse_entries (name : String) (ds : List Declaration) :
    Entries.find? name (ds.map entry).reverse = lastText? name ds := by
  unfold lastText? last?
  rw [← List.map_reverse]
  induction ds.reverse with
  | nil => rfl
  | cons d ds ih =>
    by_cases h : d.name = name
    · simp [Entries.find?, entry, h]
    · simp [Entries.find?, entry, h, ih]

/-- The last declaration of a name is the last one of its kind. -/
theorem last?_ofKind {name : String} {ds : List Declaration} {d : Declaration}
    (h : last? name ds = some d) :
    last? name (ofKind d.isType ds) = some d := by
  unfold last? ofKind at *
  obtain ⟨hname, before, after, hsplit, hbefore⟩ := List.find?_eq_some_iff_append.mp h
  rw [← List.filter_reverse, hsplit]
  refine List.find?_eq_some_iff_append.mpr ⟨hname, before.filter (fun c => c.isType == d.isType),
    after.filter (fun c => c.isType == d.isType), ?_,
    fun c hc => hbefore c (List.mem_of_mem_filter hc)⟩
  have hself : (d.isType == d.isType) = true := beq_self_eq_true _
  rw [List.filter_append, List.filter_cons, if_pos hself]

theorem last?_ofKind_eq_none {name : String} {ds : List Declaration} (h : last? name ds = none)
    (isType : Bool) : last? name (ofKind isType ds) = none := by
  unfold last? ofKind at *
  rw [← List.filter_reverse]
  exact List.find?_eq_none.mpr fun d hd => List.find?_eq_none.mp h d (List.mem_of_mem_filter hd)

/-- The last declaration counts in both orders, unless it is overtaken. -/
theorem lastText?_eq_iff (ds : List Declaration) (name : String) (below : Option String) :
    (lastText? name ds).or below =
        (lastText? name (ofKind true ds)).or ((lastText? name (ofKind false ds)).or below) ↔
      ¬ Overtaken ds name := by
  unfold lastText? Overtaken
  cases hlast : last? name ds with
  | none => simp [last?_ofKind_eq_none hlast]
  | some d =>
    have hkind := last?_ofKind hlast
    -- the last declaration of a name is the last of its kind, and only another kind can differ
    cases hd : d.isType with
    | true =>
      rw [hd] at hkind
      simp [hkind]
    | false =>
      rw [hd] at hkind
      cases htype : last? name (ofKind true ds) with
      | none => simp [hkind]
      | some t => simp [hkind]

end Declaration

namespace Registry

open Declaration (lastText?)

/-- Declarations that are put on top in turn. -/
theorem find?_putAll_entries (r : Registry) (ds : List Declaration) (name : String) :
    (r.putAll (ds.map entry)).find? name = (lastText? name ds).or (r.find? name) := by
  unfold find? putAll
  rw [Entries.find?_putAll, Declaration.find?_reverse_entries]

/-- Declarations that are put together first. -/
theorem find?_putAll_table (r : Registry) (ds : List Declaration) (name : String) :
    (r.putAll (Entries.putAll (ds.map entry) [])).find? name =
      (lastText? name ds).or (r.find? name) := by
  unfold find? putAll
  rw [Entries.find?_putAll_putAll, Declaration.find?_reverse_entries]

/-- Putting declarations on top in turn, or in one table for each kind. -/
theorem find?_eq_iff (r : Registry) (ds : List Declaration) (name : String) :
    (r.putAll (ds.map entry)).find? name =
        ((r.putAll (Entries.putAll ((ofKind false ds).map entry) [])).putAll
          (Entries.putAll ((ofKind true ds).map entry) [])).find? name ↔
      ¬ Declaration.Overtaken ds name := by
  rw [find?_putAll_entries, find?_putAll_table, find?_putAll_table]
  exact Declaration.lastText?_eq_iff ds name (r.find? name)

end Registry

/-! ## 2. A session of declarations -/

namespace Command

variable {Line Input : Type} (p : Platform Line Input)

namespace Session

variable {session : Session} {line text : String} {lines : List String} {d : Declaration}
  {ds : List Declaration} {e : Expr}

/-- The session with these declarations on top. -/
def define (session : Session) (ds : List Declaration) : Session :=
  { session with registry := session.registry.putAll (ds.map entry) }

/-- The answer to a declaration. -/
def defined (line : String) (d : Declaration) : List Piece :=
  [prompt, .typed (line ++ "\n"), .out ("Defined: " ++ d.name ++ "\n")]

/-- What a line is taken for that is not empty and no farewell. -/
theorem turn_of_ne (session : Session) (exit : line ≠ "exit") (quit : line ≠ "quit")
    (nonempty : line ≠ "") :
    session.turn p line = match Declaration.ofLine? line.toList with
      | some d =>
        if d.text.isEmpty then do
          Run.say (errorLine (Declaration.emptyMessage d.name))
          return some session
        else do
          Run.say (.out ("Defined: " ++ d.name ++ "\n"))
          return some (session.define [d])
      | none => do
        session.answer p line
        return some session := by
  have hgoesOn : line ∉ farewells := by
    unfold farewells
    rw [List.mem_cons, List.mem_singleton, not_or]
    exact ⟨exit, quit⟩
  unfold turn
  rw [if_neg hgoesOn, String.isEmpty_eq_false_iff.mpr nonempty]
  exact if_neg Bool.false_ne_true

/-- A declaration is put on top. -/
theorem turn_declaration (session : Session) (h : d.IsWritten line) :
    session.turn p (Text.trimmed line) = (do
      Run.say (.out ("Defined: " ++ d.name ++ "\n"))
      return some (session.define [d])) := by
  have hread : Declaration.ofLine? (Text.trimmed line).toList = some d :=
    (Declaration.ofLine?_trimmed line).trans h.read
  have hother (word : String) (hword : Declaration.ofLine? word.toList = none) :
      Text.trimmed line ≠ word := by
    intro heq
    rw [heq, hword] at hread
    cases hread
  rw [turn_of_ne p session (hother "exit" rfl) (hother "quit" rfl) (hother "" rfl), hread]
  exact if_neg (Bool.eq_false_iff.mp (String.isEmpty_eq_false_iff.mpr h.text))

/-- **A session of declarations** puts them on top in turn. -/
theorem converse_of_declarations (session : Session) (ending : FeedEnd)
    (declared : List.Forall₂ Declaration.IsWritten lines ds) (rest : List String) :
    session.converse p ending (lines ++ rest) = (do
      Run.sayAll (List.zipWith defined lines ds).flatten
      (session.define ds).converse p ending rest) := by
  induction declared generalizing session with
  | nil => exact Run.ext_pieces rfl rfl
  | @cons line d lines ds h _ ih =>
    have hpieces : (List.zipWith defined (line :: lines) (d :: ds)).flatten =
        [prompt, .typed (line ++ "\n")] ++ [.out ("Defined: " ++ d.name ++ "\n")] ++
          (List.zipWith defined lines ds).flatten := rfl
    have hnext : (session.define [d]).define ds = session.define (d :: ds) := rfl
    rw [List.cons_append, converse, turn_declaration p session h, hpieces]
    simp only [Run.sayAll_append, bind_assoc, pure_bind, ih, hnext]
    rfl

/-- What is said to an expression: it is shown with what it resolves to, or a fault is told. -/
def shown (session : Session) (e : Expr) : Run Unit :=
  (session.present p e).recover fun failure => Run.say (errorLine failure.message)

/-- An expression is shown, and the session goes on. -/
theorem turn_expression (session : Session) (h : e.IsWritten text) :
    session.turn p (Text.trimmed text) = (do
      session.shown p e
      return some session) := by
  have hread := h.trimmed
  have hother (word : String) (hword : ∀ e, Expr.ofText word ≠ .ok e) : Text.trimmed text ≠ word :=
    fun heq => hword e (heq ▸ hread)
  have hanswer : session.answer p (Text.trimmed text) = session.shown p e := by
    unfold answer readExpression
    rw [hread]
    rfl
  have hexit : ∀ e, Expr.ofText "exit" ≠ .ok e := fun _ h => by cases h
  have hquit : ∀ e, Expr.ofText "quit" ≠ .ok e := fun _ h => by cases h
  have hempty : ∀ e, Expr.ofText "" ≠ .ok e := fun _ h => by cases h
  rw [← hanswer, turn_of_ne p session (hother _ hexit) (hother _ hquit) (hother _ hempty),
    Declaration.ofLine?_trimmed, h.undeclared]

end Session

/-! ## 3. The document of the same lines -/

open Declaration (Overtaken)

variable {p} {choices : Choices} {schema : List (String × String)} {path : String}
  {document : Document} {lines : List String} {ds : List Declaration} {text : String} {e : Expr}

/-- The expression of a document is resolved against the four layers. -/
theorem perform_document {effective : Registry} (start : schemaEntries p choices = .ok schema)
    (chosen : choices.document = some path) (read : documentOf p path = .ok document)
    (layers : Registry.ofLayers ⟨.ofPairs Registry.builtins, .ofPairs schema,
      .ofPairs document.inline, .ofPairs document.userTypes⟩ = .ok effective)
    (parsed : Expr.ofText document.expression = .ok e) (input : Input) :
    perform p input (.resolve none choices) = (do
      let result ← (resolveIn p effective choices.settings e).handled Raised.tellOwn
      printAs p choices.format result) := by
  rw [Registry.ofLayers_ofPairs] at layers
  cases layers
  have hsources : sources p (baseRegistry schema) choices "" =
      .ok (((baseRegistry schema).putAll document.inline).putAll document.userTypes,
        document.expression) := by
    unfold sources
    rw [chosen]
    dsimp only
    rw [read]
    rfl
  have hone : (none : Option String).isSome ≠ choices.document.isSome := by
    rw [chosen]
    exact Bool.false_ne_true
  show resolve p choices none = _
  unfold resolve
  rw [if_neg hone, start, Run.of_ok_bind]
  unfold resolved readExpression
  rw [Option.getD_none, hsources, Run.of_ok_bind]
  dsimp only
  rw [parsed]
  rfl

/-- **A session and a document of the same lines** have the same text for a name if and only if no
    declaration of it as a user type is overtaken. Where no such name can be reached, they resolve
    the expression to the same tree, with the same warnings, or fail alike. -/
theorem session_and_document_agree {session : Session}
    (start : schemaEntries p choices = .ok schema)
    (opened : Session.start p choices = .ok session) (chosen : choices.document = some path)
    (file : (p.entryAt path).text path = .ok ("\n".intercalate (lines ++ [text])).toList)
    (declared : List.Forall₂ Declaration.IsWritten lines ds) (expression : e.IsWritten text) :
    ∃ document effective,
      documentOf p path = .ok document ∧
      Registry.ofLayers ⟨.ofPairs Registry.builtins, .ofPairs schema, .ofPairs document.inline,
        .ofPairs document.userTypes⟩ = .ok effective ∧
      (∀ input, perform p input (.resolve none choices) = (do
        let result ← (resolveIn p effective choices.settings e).handled Raised.tellOwn
        printAs p choices.format result)) ∧
      (session.define ds).settings = choices.settings ∧
      (∀ ending rest, session.converse p ending (lines ++ rest) = (do
        Run.sayAll (List.zipWith Session.defined lines ds).flatten
        (session.define ds).converse p ending rest)) ∧
      (session.define ds).turn p (Text.trimmed text) = (do
        (session.define ds).shown p e
        return some (session.define ds)) ∧
      (∀ name, (session.define ds).registry.find? name = effective.find? name ↔
        ¬ Overtaken ds name) ∧
      ((∀ name, (session.define ds).registry.definitions.Reachable e name → ¬ Overtaken ds name) →
        ∀ n settings, e.resolve n (session.define ds).registry settings =
          e.resolve n effective settings) := by
  -- the document declares what was typed, sorted by kind
  have hread : documentOf p path = .ok ⟨Text.trimmed text,
      Entries.putAll ((ofKind false ds).map entry) [],
      Entries.putAll ((ofKind true ds).map entry) []⟩ := by
    unfold documentOf
    rw [file]
    show (Document.ofText (String.ofList _)).mapError _ = _
    rw [String.ofList_toList, Document.ofText_of_written declared expression]
    rfl
  have hlayers := Registry.ofLayers_ofPairs Registry.builtins schema
    (Entries.putAll ((ofKind false ds).map entry) [])
    (Entries.putAll ((ofKind true ds).map entry) [])
  have hopened : session = ⟨baseRegistry schema, choices.settings⟩ := by
    unfold Session.start at opened
    rw [start] at opened
    exact (Except.ok.inj opened).symm
  subst hopened
  have hsame := Registry.find?_eq_iff (baseRegistry schema) ds
  refine ⟨_, _, hread, hlayers, perform_document start chosen hread hlayers expression.trimmed, rfl,
    fun ending rest => Session.converse_of_declarations p _ ending declared rest,
    Session.turn_expression p _ expression, hsame, fun hreach n settings => ?_⟩
  exact Expr.resolve_reads_reachable_only fun name hname => (hsame name).mpr (hreach name hname)

/-- A user type takes the place of an inline definition in both, blanks around the lines or not. -/
theorem shadowing_type_agrees :
    let source := "a = $b\n b = 1 \ntype b = null\n $a"
    let lines := ["a = $b", " b = 1 ", "type b = null"]
    let ds : List Declaration := [⟨false, "a", "$b"⟩, ⟨false, "b", "1"⟩, ⟨true, "b", "null"⟩]
    let p := Outer.platform fun _ => .file source.toUTF8.toList
    let choices : Choices := { document := some "d" }
    let session : Session := ⟨baseRegistry [], choices.settings⟩
    schemaEntries p choices = .ok [] ∧ Session.start p choices = .ok session ∧
      (p.entryAt "d").text "d" = .ok ("\n".intercalate (lines ++ [" $a"])).toList ∧
      List.Forall₂ Declaration.IsWritten lines ds ∧ Expr.IsWritten " $a" (.reference "a") ∧
      ∃ document effective,
        documentOf p "d" = .ok document ∧
        Registry.ofLayers ⟨.ofPairs Registry.builtins, .ofPairs [], .ofPairs document.inline,
          .ofPairs document.userTypes⟩ = .ok effective ∧
        (∀ name, (session.define ds).registry.find? name = effective.find? name) ∧
        ∀ n settings, (Expr.reference "a").resolve n (session.define ds).registry settings =
          (Expr.reference "a").resolve n effective settings := by
  intro source lines ds p choices session
  have start : schemaEntries p choices = .ok [] := rfl
  have opened : Session.start p choices = .ok session := rfl
  have file : (p.entryAt "d").text "d" = .ok ("\n".intercalate (lines ++ [" $a"])).toList := by
    decide +kernel
  have declared : List.Forall₂ Declaration.IsWritten lines ds :=
    .cons ⟨Text.forall_of_any_eq_false rfl, rfl, by decide⟩ <|
      .cons ⟨Text.forall_of_any_eq_false rfl, rfl, by decide⟩ <|
      .cons ⟨Text.forall_of_any_eq_false rfl, rfl, by decide⟩ .nil
  have expression : Expr.IsWritten " $a" (.reference "a") :=
    ⟨Text.forall_of_any_eq_false rfl, rfl, rfl⟩
  -- the only type is declared last, so nothing overtakes it
  have hnone : ∀ name, ¬ Overtaken ds name := by
    rintro name ⟨d, t, hd, ht, htexts⟩
    have hmem : t ∈ (ofKind true ds).reverse := List.mem_of_find?_eq_some ht
    have hname := List.find?_some ht
    cases List.mem_singleton.mp hmem
    cases eq_of_beq hname
    cases hd
    exact htexts rfl
  obtain ⟨document, effective, hdocument, hlayers, -, -, -, -, hsame, hresolved⟩ :=
    session_and_document_agree start opened rfl file declared expression
  exact ⟨start, opened, file, declared, expression, document, effective, hdocument, hlayers,
    fun name => (hsame name).mpr (hnone name), hresolved fun name _ => hnone name⟩

/-- In a session an inline definition takes the place of a user type, and in a document it does
    not. -/
theorem overtaken_type_is_resolved_apart :
    let lines := ["type a = null", "a = true"]
    let ds : List Declaration := [⟨true, "a", "null"⟩, ⟨false, "a", "true"⟩]
    let source := "type a = null\na = true\n$a"
    let p := Outer.platform fun _ => .file source.toUTF8.toList
    List.Forall₂ Declaration.IsWritten lines ds ∧ Expr.IsWritten "$a" (.reference "a") ∧
      source = "\n".intercalate (lines ++ ["$a"]) ∧
      (∃ session, Session.start p {} = .ok session ∧
        (session.define ds).registry.find? "a" = some "true") ∧
      (∃ document effective, Document.ofText source = .ok document ∧
        Registry.ofLayers ⟨.ofPairs Registry.builtins, .ofPairs [], .ofPairs document.inline,
          .ofPairs document.userTypes⟩ = .ok effective ∧
        effective.find? "a" = some "null") ∧
      (run p ["repl"] (source ++ "\n")).stdout =
        "Input (or 'exit' to quit): type a = null\n" ++ "Defined: a\n" ++
        "Input (or 'exit' to quit): a = true\n" ++ "Defined: a\n" ++
        "Input (or 'exit' to quit): $a\n" ++ "Parsed:   $a:ref\n" ++ "Resolved: true:bool\n" ++
        "Input (or 'exit' to quit): Goodbye!\n" ∧
      (run p ["resolve", "-f", "d"] "").stdout = "null:null\n" := by
  intro lines ds source p
  have declared : List.Forall₂ Declaration.IsWritten lines ds :=
    .cons ⟨Text.forall_of_any_eq_false rfl, rfl, by decide⟩ <|
      .cons ⟨Text.forall_of_any_eq_false rfl, rfl, by decide⟩ .nil
  have expression : Expr.IsWritten "$a" (.reference "a") :=
    ⟨Text.forall_of_any_eq_false rfl, rfl, rfl⟩
  have document : Document.ofText source = .ok ⟨"$a", [("a", "true")], [("a", "null")]⟩ := by
    unfold source
    rfl
  exact ⟨declared, expression, by decide +kernel, ⟨_, rfl, rfl⟩,
    ⟨_, _, document, Registry.ofLayers_ofPairs _ _ _ _, rfl⟩, by decide +kernel, by decide +kernel⟩

end Command

end Sigil

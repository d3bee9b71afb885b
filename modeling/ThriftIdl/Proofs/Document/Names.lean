import ThriftIdl.Proofs.Document.WellFormed
import ThriftIdl.Proofs.Grammar.EnumItems
import ThriftIdl.Proofs.Grammar.Loops
import ThriftIdl.Proofs.Identifier

/-!
The names in a document that was read. All of them are identifiers but those of exceptions that a
function throws and that are given by their type alone: these are named by the type, which is not
checked.
-/

namespace ThriftIdl

/-- The field is like an exception given by its type alone. -/
structure Field.Bare (field : Field) : Prop where
  name : field.name = field.type
  requiredness : field.requiredness = .unstated
  default? : field.default? = none

namespace Body

/-- The names in the body, those of thrown exceptions apart. -/
def names : Body → List String
  | const .. => []
  | typedef .. => []
  | enum values => values.map (·.name)
  | senum .. => []
  | struct fields => fields.map (·.name)
  | exception fields => fields.map (·.name)
  | service base? functions => base?.toList ++
      functions.flatMap fun function => function.name :: function.params.map (·.name)

/-- The exceptions that the functions in the body throw. -/
def thrown : Body → List Field
  | service _ functions => functions.flatMap (·.throws)
  | _ => []

/-- The names in the body are identifiers, those of thrown exceptions given by their type apart. -/
structure Named (body : Body) : Prop where
  names : ∀ name ∈ body.names, Identifier.isValid name = true
  thrown : ∀ field ∈ body.thrown, Identifier.isValid field.name = true ∨ field.Bare

end Body

namespace Grammar

variable {tokens rest : List Token}

/-- What holds of every item holds of all that a loop takes. -/
theorem Loop.forall_mem {α : Type} {loop : Loop α} {P : α → Prop}
    (hitem : ∀ {taken tokens value rest}, loop.item taken tokens = .ok (value, rest) → P value)
    {taken values : List α} {tokens : List Token} (htaken : ∀ value ∈ taken, P value)
    (h : loop.all taken tokens = .ok values) : ∀ value ∈ values, P value := by
  rw [loop.all_eq] at h
  cases hskip : skipSeparators tokens with
  | nil =>
    rw [hskip] at h
    cases h
    exact htaken
  | cons token after =>
    rw [hskip] at h
    obtain ⟨⟨value, remaining⟩, hvalue, h⟩ := bind_eq_ok.1 h
    have hall : loop.all (taken ++ [value]) remaining = .ok values := h
    refine forall_mem hitem ?_ hall
    rw [List.forall_mem_append, List.forall_mem_singleton]
    exact ⟨htaken, hitem hvalue⟩
termination_by tokens.length
decreasing_by
  exact ((loop.leaves hvalue).after_suffix (hskip ▸ skipSeparators_suffix tokens)).length_lt

theorem readField_named {last : Nat} {field : Field}
    (h : readField last tokens = .ok (field, rest)) : Identifier.isValid field.name = true := by
  obtain ⟨⟨⟨id, line⟩, afterId⟩, -, h⟩ := bind_eq_ok.1 h
  obtain ⟨⟨⟨requiredness, type⟩, afterType⟩, -, h⟩ := bind_eq_ok.1 h
  obtain ⟨⟨name, afterName⟩, -, h⟩ := bind_eq_ok.1 h
  obtain ⟨_, hname, h⟩ := bind_eq_ok.1 h
  obtain ⟨⟨default?, after⟩, -, h⟩ := bind_eq_ok.1 h
  cases h
  exact checkIdentifier_eq_ok_iff.1 hname

/-- What holds of the fields that are read, and in a list that allows them of exceptions given by
their type, holds of all entries of a list in parentheses. -/
theorem readEntries_forall_mem {bare : Bool} {last opened : Nat} {P : Field → Prop}
    (hread : ∀ {tokens field rest}, readField last tokens = .ok (field, rest) → P field)
    (hbare : bare = true → ∀ {field : Field}, field.Bare → P field)
    {taken fields : List Field} (htaken : ∀ field ∈ taken, P field)
    (h : readEntries bare last opened taken tokens = .ok (fields, rest)) :
    ∀ field ∈ fields, P field := by
  fun_induction readEntries bare last opened taken tokens with
  | case1 => cases h
  | case2 =>
    cases h
    exact htaken
  | case3 => cases h
  | case4 => cases h
  | case5 taken tokens token after hskip hclose field remaining hentry hnew ih =>
    refine ih ?_ h
    rw [List.forall_mem_append, List.forall_mem_singleton]
    refine ⟨htaken, ?_⟩
    rw [readEntry] at hentry
    split at hentry
    · next hstart =>
      rw [Bool.and_eq_true] at hstart
      obtain ⟨⟨type, afterType⟩, -, hentry⟩ := bind_eq_ok.1 hentry
      cases hentry
      exact hbare hstart.1 ⟨rfl, rfl, rfl⟩
    · exact hread hentry

theorem readParams_named {last : Nat} {function : Word} {params : List Field}
    (h : readParams last function tokens = .ok (params, rest)) :
    ∀ field ∈ params, Identifier.isValid field.name = true := by
  rw [readParams] at h
  split at h
  · cases h
  · exact readEntries_forall_mem readField_named (by simp) (by simp) h

theorem readThrows_named {last : Nat} {throws : List Field}
    (h : readThrows last tokens = .ok (throws, rest)) :
    ∀ field ∈ throws, Identifier.isValid field.name = true ∨ field.Bare := by
  rw [readThrows] at h
  split at h
  · cases h
    simp
  · split at h
    · cases h
    · exact readEntries_forall_mem (fun hread => .inl (readField_named hread))
        (fun _ _ hbare => .inr hbare) (by simp) h

/-- The function's name and those of its parameters are identifiers, and those of its exceptions
but where they are given by their type. -/
structure Named (function : Function) : Prop where
  name : Identifier.isValid function.name = true
  params : ∀ field ∈ function.params, Identifier.isValid field.name = true
  throws : ∀ field ∈ function.throws, Identifier.isValid field.name = true ∨ field.Bare

theorem readFunction_named {last : Nat} {function : Function}
    (h : readFunction last tokens = .ok (function, rest)) : Named function := by
  obtain ⟨⟨type, afterType⟩, -, h⟩ := bind_eq_ok.1 h
  obtain ⟨⟨name, afterName⟩, -, h⟩ := bind_eq_ok.1 h
  obtain ⟨_, hname, h⟩ := bind_eq_ok.1 h
  obtain ⟨⟨params, afterParams⟩, hparams, h⟩ := bind_eq_ok.1 h
  obtain ⟨⟨throws, after⟩, hthrows, h⟩ := bind_eq_ok.1 h
  obtain ⟨_, -, h⟩ := bind_eq_ok.1 h
  cases h
  exact ⟨checkIdentifier_eq_ok_iff.1 hname, readParams_named hparams, readThrows_named hthrows⟩

theorem readFields_named {last : Nat} {fields : List Field}
    (h : readFields last [] tokens = .ok fields) :
    ∀ field ∈ fields, Identifier.isValid field.name = true := by
  have hall : (fieldLoop last).all [] tokens = .ok fields := h
  refine Loop.forall_mem (fun hitem => ?_) (by simp) hall
  obtain ⟨⟨field, after⟩, hread, hitem⟩ := bind_eq_ok.1 hitem
  obtain ⟨_, -, hitem⟩ := bind_eq_ok.1 hitem
  cases hitem
  exact readField_named hread

theorem readFunctions_named {last : Nat} {functions : List Function}
    (h : readFunctions last [] tokens = .ok functions) : ∀ function ∈ functions, Named function := by
  have hall : (functionLoop last).all [] tokens = .ok functions := h
  refine Loop.forall_mem (fun hitem => ?_) (by simp) hall
  obtain ⟨⟨function, after⟩, hread, hitem⟩ := bind_eq_ok.1 hitem
  obtain ⟨_, -, hitem⟩ := bind_eq_ok.1 hitem
  cases hitem
  exact readFunction_named hread

theorem readEnumValues_named {values : List EnumValue}
    (h : readEnumValues [] tokens = .ok values) :
    ∀ value ∈ values, Identifier.isValid value.name = true := by
  obtain ⟨items, -, hsound, hgives⟩ := readEnumValues_eq_ok_iff.1 h
  intro value hvalue
  have hname := List.mem_map_of_mem (f := (·.name)) hvalue
  rw [hgives.names] at hname
  obtain ⟨item, hitem, heq⟩ := List.mem_map.1 hname
  exact heq ▸ hsound.identifiers item hitem

/-- The names in a body that is read are identifiers, if its base is one. -/
theorem readBody_named {kind : Kind} {base? : Option String} {block : Block} {body : Body}
    (hbase : ∀ base ∈ base?, Identifier.isValid base = true)
    (h : readBody kind base? block = .ok body) : body.Named := by
  unfold readBody at h
  split at h
  · obtain ⟨values, hvalues, h⟩ := bind_eq_ok.1 h
    cases h
    exact ⟨List.forall_mem_map.2 (readEnumValues_named hvalues), by simp [Body.thrown]⟩
  · obtain ⟨values, -, h⟩ := bind_eq_ok.1 h
    cases h
    exact ⟨by simp [Body.names], by simp [Body.thrown]⟩
  · obtain ⟨fields, hfields, h⟩ := bind_eq_ok.1 h
    cases h
    exact ⟨List.forall_mem_map.2 (readFields_named hfields), by simp [Body.thrown]⟩
  · obtain ⟨functions, hfunctions, h⟩ := bind_eq_ok.1 h
    cases h
    have hnamed := readFunctions_named hfunctions
    refine ⟨?_, ?_⟩
    · rw [Body.names, List.forall_mem_append, List.forall_mem_flatMap]
      refine ⟨fun base hmem => hbase base (Option.mem_toList.1 hmem), fun function hfunction => ?_⟩
      rw [List.forall_mem_cons, List.forall_mem_map]
      exact ⟨(hnamed function hfunction).name, (hnamed function hfunction).params⟩
    · rw [Body.thrown, List.forall_mem_flatMap]
      exact fun function hfunction => (hnamed function hfunction).throws
  · obtain ⟨fields, hfields, h⟩ := bind_eq_ok.1 h
    cases h
    exact ⟨List.forall_mem_map.2 (readFields_named hfields), by simp [Body.thrown]⟩

theorem readBaseOf_named {kind : Kind} {start : Nat} {base? : Option String}
    (h : readBaseOf kind start tokens = .ok (base?, rest)) :
    ∀ base ∈ base?, Identifier.isValid base = true := by
  rw [readBaseOf, readBase.eq_def] at h
  split at h
  · split at h
    · cases h
      simp
    · obtain ⟨_, hname, h⟩ := bind_eq_ok.1 h
      cases h
      intro base hbase
      cases hbase
      exact checkIdentifier_eq_ok_iff.1 hname
    · cases h
  · cases h
    simp

theorem readConst_named {taken : List Definition} {start : Nat} {definition : Definition}
    (h : readConst taken start tokens = .ok definition) : definition.body.Named := by
  simp only [readConst] at h
  split at h
  · split at h
    · obtain ⟨declared, -, h⟩ := bind_eq_ok.1 h
      cases h
      exact ⟨by simp [Body.names], by simp [Body.thrown]⟩
    · cases h
  · cases h

theorem readTypedef_named {taken : List Definition} {start : Nat} {definition : Definition}
    (h : readTypedef taken start tokens = .ok definition) : definition.body.Named := by
  rw [readTypedef.eq_def] at h
  split at h
  · obtain ⟨declared, -, h⟩ := bind_eq_ok.1 h
    cases h
    exact ⟨by simp [Body.names], by simp [Body.thrown]⟩
  · cases h

theorem readDefinition_named {taken : List Definition} {line : Line} {lines : List Line}
    {extent : Extent} (h : readDefinition taken line lines = .ok extent) :
    extent.definition.body.Named := by
  unfold readDefinition at h
  split at h
  · cases h
  · split at h
    · split at h
      · cases h
      · obtain ⟨definition, hdefinition, h⟩ := bind_eq_ok.1 h
        cases h
        exact readConst_named hdefinition
      · obtain ⟨definition, hdefinition, h⟩ := bind_eq_ok.1 h
        cases h
        exact readTypedef_named hdefinition
      · obtain ⟨declared, afterName, base?, afterBase, block, body, -, hbase, -, hbody, rfl⟩ :=
          readBlockDefinition_eq_ok.1 h
        exact readBody_named (readBaseOf_named hbase) hbody
    · cases h

end Grammar

namespace Document

/-- The names in the document, those of thrown exceptions apart. -/
def names (document : Document) : List String :=
  document.definitions.flatMap fun definition => definition.name :: definition.body.names

/-- The exceptions that the document's functions throw. -/
def thrown (document : Document) : List Field :=
  document.definitions.flatMap (·.body.thrown)

theorem named_of_read {document result : Document} (h : document.read = .ok result) :
    ∀ definition ∈ result.definitions, definition.body.Named := by
  obtain ⟨definitions, hdefinitions, rfl⟩ := read_eq_ok_iff.1 h
  exact Grammar.forall_mem_of_readDefinitions Grammar.readDefinition_named (by simp)
    (readDefinitions_eq_ok hdefinitions)

/-- In a document that was read the names are identifiers: all but those of thrown exceptions, which
are identifiers if the exception is not given by its type alone, or if its type is one. -/
theorem names_of_read {document result : Document} (h : document.read = .ok result) :
    (∀ name ∈ result.names,
      Identifier.isValid name = true ∧ name.toList ∈ Identifier.language) ∧
    (∀ field ∈ result.thrown, Identifier.isValid field.name = true ∨ field.Bare) ∧
    ((∀ field ∈ result.thrown, field.Bare → Identifier.isValid field.type = true) →
      ∀ field ∈ result.thrown,
        Identifier.isValid field.name = true ∧ field.name.toList ∈ Identifier.language) := by
  have hnamed := named_of_read h
  have hnames : ∀ name ∈ result.names, Identifier.isValid name = true := by
    rw [names, List.forall_mem_flatMap]
    intro definition hdefinition
    rw [List.forall_mem_cons]
    exact ⟨(definitions_of_read h definition hdefinition).name, (hnamed definition hdefinition).names⟩
  have hthrown : ∀ field ∈ result.thrown, Identifier.isValid field.name = true ∨ field.Bare := by
    rw [thrown, List.forall_mem_flatMap]
    exact fun definition hdefinition => (hnamed definition hdefinition).thrown
  refine ⟨fun name hname => ?_, hthrown, fun htypes field hfield => ?_⟩
  · exact ⟨hnames name hname, Identifier.isValid_iff.1 (hnames name hname)⟩
  · have hvalid : Identifier.isValid field.name = true := by
      rcases hthrown field hfield with hvalid | hbare
      · exact hvalid
      · exact hbare.name ▸ htypes field hfield hbare
    exact ⟨hvalid, Identifier.isValid_iff.1 hvalid⟩

/-- A service with one function, which throws what stands between the parentheses. -/
def throwing (exceptions : String) : Document :=
  ofSource "desk.thrift" ("service Desk \x7b void take(1: i32 id) throws (" ++ exceptions ++ ") \x7d")

/-- The service as it is read if it throws one type. -/
def throwingOne (type : String) : Document :=
  { throwing type with
    definitions := [⟨⟨"Desk", 0⟩, .service none [⟨"take", none, false,
      [⟨1, .unstated, "i32", "id", none, 0⟩], [⟨1, .unstated, type, type, none, 0⟩], 0⟩]⟩] }

/-- An exception with a name is named by it. -/
theorem names_of_read_late :
    (throwing "Late").read = .ok (throwingOne "Late") ∧
    (∀ name ∈ (throwingOne "Late").names,
      Identifier.isValid name = true ∧ name.toList ∈ Identifier.language) ∧
    ∀ field ∈ (throwingOne "Late").thrown,
      Identifier.isValid field.name = true ∧ field.name.toList ∈ Identifier.language := by
  have hread : (throwing "Late").read = .ok (throwingOne "Late") := by decide +kernel
  obtain ⟨hnames, -, hthrown⟩ := names_of_read hread
  refine ⟨hread, hnames, hthrown ?_⟩
  have htypes : ∀ field ∈ (throwingOne "Late").thrown, Identifier.isValid field.type = true := by
    decide
  exact fun field hfield _ => htypes field hfield

/-- A map is thrown under its type, which is no identifier. -/
theorem not_names_of_read :
    ¬∀ document result : Document, document.read = .ok result →
      ∀ name ∈ result.names ++ result.thrown.map (·.name), Identifier.isValid name = true := by
  intro h
  have hread : (throwing "map<string,i32>").read = .ok (throwingOne "map<string,i32>") := by
    decide +kernel
  have hvalid := h _ _ hread "map<string,i32>" (by decide)
  exact absurd hvalid (by decide)

end Document

end ThriftIdl

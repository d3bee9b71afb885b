import ThriftIdl.Proofs.Document.WellFormed
import ThriftIdl.Proofs.Model.Acceptance
import ThriftIdl.Proofs.Model.Recovery

/-!
Members of definitions in a model that was read from a text. Definitions of a document and names in
a namespace stand apart, as in a model that was parsed. The members of a definition are taken as
they are written: they stand apart exactly if they do in the text.
-/

namespace ThriftIdl

/-- The members of the body, and those of its functions, stand apart. -/
def Body.Apart : Body → Prop
  | const .. => True
  | typedef .. => True
  | enum values => EnumValue.Apart values
  | senum values => values.Nodup
  | struct fields => Field.Apart fields
  | exception fields => Field.Apart fields
  | service _ functions =>
    (functions.map (·.name)).Nodup ∧
      ∀ function ∈ functions, Field.Apart function.params ∧ Field.Apart function.throws

instance (body : Body) : Decidable body.Apart :=
  match body with
  | .const .. => .isTrue trivial
  | .typedef .. => .isTrue trivial
  | .enum values => inferInstanceAs (Decidable (EnumValue.Apart values))
  | .senum values => inferInstanceAs (Decidable values.Nodup)
  | .struct fields => inferInstanceAs (Decidable (Field.Apart fields))
  | .exception fields => inferInstanceAs (Decidable (Field.Apart fields))
  | .service _ functions => inferInstanceAs (Decidable ((functions.map (·.name)).Nodup ∧
      ∀ function ∈ functions, Field.Apart function.params ∧ Field.Apart function.throws))

/-- The members of a body that the grammar accepts stand apart. -/
theorem Body.WellFormed.apart {body : Body} (h : body.WellFormed) : body.Apart := by
  cases body with
  | service base? functions =>
    exact ⟨h.1, fun function hfunction => ⟨(h.2 function hfunction).params,
      (h.2 function hfunction).throws⟩⟩
  | _ => exact h

namespace Model

/-- Names stand apart where the model looks things up: among the definitions of a document and among
the members of a namespace. -/
structure NamesApart (model : Model) : Prop where
  definitions : ∀ document ∈ model.documents, (document.definitions.map (·.name)).Nodup
  identifiers : ∀ target ∈ model.targets, ∀ space ∈ target.namespaces,
    Namespace.Apart space.members

/-- The members of all definitions stand apart. -/
def MembersApart (model : Model) : Prop :=
  ∀ document ∈ model.documents, ∀ definition ∈ document.definitions, definition.body.Apart

end Model

namespace Json

/-- No two fields of the list have one id or one name. -/
structure FieldsApart (json : Json) : Prop where
  ids : (column "id" json.items).Nodup
  names : (column "name" json.items).Nodup

/-- The members that the object of a definition lists for its kind stand apart. -/
def BodyApart (json : Json) : Kind → Prop
  | .const => True
  | .typedef => True
  | .enum =>
    (column "name" (json.under "values").items).Nodup ∧
      (column "value" (json.under "values").items).Nodup
  | .senum => (json.under "values").items.Nodup
  | .struct => FieldsApart (json.under "fields")
  | .exception => FieldsApart (json.under "fields")
  | .service =>
    (column "name" (json.under "functions").items).Nodup ∧
      ∀ function ∈ (json.under "functions").items,
        FieldsApart (function.under "params") ∧ FieldsApart (function.under "throws")

/-- The members of all definitions that the value lists stand apart. -/
def MembersApart (json : Json) : Prop :=
  ∀ document ∈ (json.under "documents").entries,
    ∀ definition ∈ (document.2.under "definitions").items,
      ∀ kind : Kind, definition.under "kind" = .string kind.word → definition.BodyApart kind

theorem integer_injective : Function.Injective integer := fun _ _ => integer.inj

theorem fieldsApart_iff {json : Json} {fields : List Field} (h : json.Lists Field.Written fields) :
    json.FieldsApart ↔ Field.Apart fields := by
  obtain ⟨items, rfl, hitems⟩ := h
  have hids : (column "id" items).Nodup ↔ (fields.map (·.id)).Nodup :=
    nodup_column_iff (integer_injective.comp fun _ _ => Int16.toInt_inj.1)
      (fun _ _ h => h.id) hitems
  have hnames : (column "name" items).Nodup ↔ (fields.map (·.name)).Nodup :=
    nodup_column_iff string_injective (fun _ _ h => h.name) hitems
  exact ⟨fun h => ⟨hids.1 h.ids, hnames.1 h.names⟩, fun h => ⟨hids.2 h.ids, hnames.2 h.names⟩⟩

theorem bodyApart_iff {json : Json} {body : Body} (h : body.Written json) :
    json.BodyApart body.kind ↔ body.Apart := by
  cases body with
  | const type value => exact Iff.rfl
  | typedef type => exact Iff.rfl
  | enum values =>
    obtain ⟨items, hvalues, hitems⟩ := h
    rw [Body.kind, BodyApart, hvalues, Body.Apart, EnumValue.apart_iff]
    exact and_congr (nodup_column_iff string_injective (fun _ _ h => h.name) hitems)
      (nodup_column_iff (integer_injective.comp fun _ _ => Int32.toInt_inj.1)
        (fun _ _ h => h.number) hitems)
  | senum values =>
    rw [Body.kind, BodyApart, show json.under "values" = _ from h]
    exact List.nodup_map_iff string_injective
  | struct fields => exact fieldsApart_iff h
  | exception fields => exact fieldsApart_iff h
  | service base? functions =>
    obtain ⟨-, items, hfunctions, hitems⟩ := h
    rw [Body.kind, BodyApart, hfunctions, Body.Apart]
    apply and_congr
    · exact nodup_column_iff string_injective (fun _ _ h => h.name) hitems
    · apply Steps.forall_mem_iff_of_forall₂ hitems
      intro item function hwritten
      exact and_congr (fieldsApart_iff hwritten.params) (fieldsApart_iff hwritten.throws)

theorem membersApart_iff {json : Json} {model : Model} (h : model.Lists json) :
    json.MembersApart ↔ model.MembersApart := by
  apply Steps.forall_mem_iff_of_forall₂ h.documents
  rintro entry document ⟨-, hwritten⟩
  obtain ⟨items, hdefinitions, hitems⟩ := hwritten.definitions
  rw [hdefinitions]
  apply Steps.forall_mem_iff_of_forall₂ hitems
  intro item definition hwritten
  rw [← bodyApart_iff hwritten.body, hwritten.kind]
  constructor
  · exact fun hall => hall definition.kind rfl
  · intro hbody kind hkind
    rwa [← Kind.word_injective (string_injective hkind)]

end Json

namespace Model

theorem Portable.namesApart {model : Model} (h : model.Portable) : model.NamesApart where
  definitions document hdocument := (h.documents document hdocument).nodup_names
  identifiers target htarget space hspace :=
    ((h.targets target htarget).namespaces space hspace).apart

/-- In a model that was parsed all names stand apart, those of members too. -/
theorem apart_of_parse {model next : Model} (hnames : (model.documents.map (·.name)).Nodup)
    (h : model.parse = (.ok (), next)) : next.NamesApart ∧ next.MembersApart := by
  have hparsed : model.parsed = false := by
    by_contra hparsed
    rw [parse_of_parsed (by simpa using hparsed)] at h
    cases h
  rcases parse_cases hnames hparsed with
    ⟨fault, -, hparse⟩ | ⟨documents, hread, ⟨fault, -, hparse⟩ | ⟨targets, hresolve, hparse⟩⟩
  · rw [hparse] at h
    cases h
  · rw [hparse] at h
    cases h
  · rw [hparse] at h
    cases h
    have hread' : ∀ document ∈ documents, ∃ source : Document, source.read = .ok document := by
      intro document hdocument
      obtain ⟨source, -, hsource⟩ := Steps.exists_of_mem_mapM hread hdocument
      exact ⟨source, hsource⟩
    refine ⟨⟨?_, ?_⟩, ?_⟩
    · intro document hdocument
      obtain ⟨source, hsource⟩ := hread' document hdocument
      exact Document.nodup_names_of_read hsource
    · intro target htarget space hspace
      exact (Target.merges_of_mem_resolve hresolve htarget).apart_members hspace
    · intro document hdocument definition hdefinition
      obtain ⟨source, hsource⟩ := hread' document hdocument
      exact (Document.definitions_of_read hsource definition hdefinition).body.apart

/-- In a model that was read from bytes names stand apart where it looks things up. The members of
its definitions stand apart exactly if they do in the bytes. -/
theorem apart_of_decode {bytes : ByteArray} {model : Model} (h : decode bytes = .ok model) :
    model.NamesApart ∧
      ∀ json, (String.fromUTF8? bytes).bind Json.ofText? = some json →
        (model.MembersApart ↔ json.MembersApart) := by
  refine ⟨(portable_of_decode h).namesApart, ?_⟩
  intro json hjson
  rw [decode, hjson] at h
  obtain ⟨text, -, htext⟩ := Option.bind_eq_some_iff.1 hjson
  exact (Json.membersApart_iff (Decoding.lists_of_model (Json.keyed_of_ofText? htext) h)).symm

/-- A definition of every kind that has members. Each has two, told apart only by the second's
name and number. -/
def twinDefinitions (name : String) (id : Int16) (value : Int32) : List Definition :=
  let fields : List Field :=
    [⟨0, .unstated, "i32", "A", none, 0⟩, ⟨id, .unstated, "i32", name, none, 0⟩]
  [⟨⟨"Mode", 0⟩, .enum [⟨"A", 0, true, 0⟩, ⟨name, value, true, 0⟩]⟩,
    ⟨⟨"Word", 0⟩, .senum ["A", name]⟩,
    ⟨⟨"Item", 0⟩, .struct fields⟩,
    ⟨⟨"Late", 0⟩, .exception fields⟩,
    ⟨⟨"Desk", 0⟩, .service none [
      ⟨"A", none, false, fields, [], 0⟩, ⟨name, none, false, [], fields, 0⟩]⟩]

/-- A model whose one document has these definitions. -/
def twins (name : String) (id : Int16) (value : Int32) : Model where
  documents := [{
    name := "twins.thrift", lines := [], namespaces := [("default", "twins")],
    definitions := twinDefinitions name id value }]

theorem portable_twins (name : String) (id : Int16) (value : Int32) :
    (twins name id value).Portable where
  documents := by
    simp only [twins, List.forall_mem_singleton]
    refine ⟨?_, by simp [twinDefinitions, Definition.name], by simp [Table.keys]⟩
    simp only [twinDefinitions, List.forall_mem_cons, List.not_mem_nil, IsEmpty.forall_iff,
      implies_true, and_true]
    refine ⟨⟨?_, ?_, ?_⟩, ⟨?_, ?_, ?_⟩, ⟨?_, ?_, ?_⟩, ⟨?_, ?_, ?_⟩, ⟨?_, ?_, ?_⟩⟩
    all_goals simp [Definition.line, Body.lines, Function.lines, Body.functions, Text.wordSize]
  nodup_documents := by simp [twins]
  targets := by simp [twins]
  nodup_targets := by simp [twins]

theorem decode_twins (name : String) (id : Int16) (value : Int32) :
    decode (twins name id value).encode.toUTF8 = .ok (twins name id value) :=
  decode_encode_of_portable (portable_twins name id value)

/-- Members that stand apart are written apart. -/
theorem apart_twins : (twins "B" 1 1).NamesApart ∧ (twins "B" 1 1).toJson.MembersApart := by
  obtain ⟨hnames, hmembers⟩ := apart_of_decode (decode_twins "B" 1 1)
  have hapart : (twins "B" 1 1).MembersApart := by
    simp only [MembersApart, twins, List.forall_mem_singleton]
    decide
  exact ⟨hnames, (hmembers _ (ofText?_encode (portable_twins "B" 1 1))).1 hapart⟩

/-- Members of every kind are read from bytes although they repeat. -/
theorem repeated_twins :
    decode (twins "A" 0 0).encode.toUTF8 = .ok (twins "A" 0 0) ∧
      ∀ document ∈ (twins "A" 0 0).documents, ∀ definition ∈ document.definitions,
        ¬definition.body.Apart := by
  refine ⟨decode_twins "A" 0 0, ?_⟩
  simp only [twins, List.forall_mem_singleton]
  decide

end Model

end ThriftIdl

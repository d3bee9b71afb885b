import ThriftIdl.Proofs.Merging
import ThriftIdl.Proofs.Model.Written

/-!
What JSON lists documents and targets. A document is read from the objects that write it, if its
definitions have names apart. A namespace is read from groups of references: each reference must
point to a definition of the kind of its group, and no name may be listed twice.
-/

namespace ThriftIdl

/-- The object writes the document, whatever its name. -/
structure Document.Written (document : Document) (json : Json) : Prop where
  namespaces : ∃ pairs : List (String × String),
    json.under "namespaces" = .object (pairs.map fun pair => (pair.1, .string pair.2)) ∧
      document.namespaces = .ofPairs pairs
  lines : json.under "lines" = .array (document.lines.map .string)
  definitions : (json.under "definitions").Lists Definition.Written document.definitions

/-- The object writes the reference. -/
structure Reference.Written (reference : Reference) (json : Json) : Prop where
  document : json.under "document" = .string reference.document
  identifier : json.under "identifier" = .string reference.identifier

/-- The member stands for the definition that its reference points to. -/
def Member.Resolved (documents : List Document) (member : Member) : Prop :=
  ∃ document definition, documents.find? (·.name == member.reference.document) = some document ∧
    document.lookup? member.identifier = some definition ∧
    member = .ofDefinition document.name definition

/-- The object, in the group of a kind, lists the member: it writes its reference, and that points
to a definition of the kind. -/
structure Member.Listed (documents : List Document) (kind : Kind) (json : Json)
    (member : Member) : Prop where
  reference : member.reference.Written json
  kind_eq : member.kind = kind
  resolved : member.Resolved documents

namespace Json

/-- The object's members are groups: an array under the word of a kind. -/
def Grouped (groups : List (String × Json)) : Prop :=
  ∀ group ∈ groups, (∃ kind : Kind, group.1 = kind.word) ∧ ∃ items, group.2 = .array items

/-- What groups list, each item with the kind of its group. -/
def listed (groups : List (String × Json)) : List (Kind × Json) :=
  groups.flatMap fun group =>
    (Kind.ofWord? group.1).toList.flatMap fun kind => group.2.items.map (kind, ·)

end Json

/-- The entry lists the namespace of a target: the members that its groups list, no name twice. -/
structure Namespace.Listed (documents : List Document) (target : String)
    (entry : String × Json) (space : Namespace) : Prop where
  grouped : ∃ groups, entry.2 = .object groups ∧ Json.Grouped groups
  members : ∃ members, List.Forall₂ (fun item member =>
    Member.Listed documents item.1 item.2 member) (Json.listed entry.2.entries) members ∧
      Namespace.Apart members ∧ space = .ofMembers target entry.1 members

theorem Document.push_eq_ok_iff {document result : Document} {definition : Definition} :
    document.push definition = .ok result ↔
      definition.name ∉ document.definitions.map (·.name) ∧
        result = { document with definitions := document.definitions ++ [definition] } := by
  rw [← Lookup.find?_eq_none_iff, push, lookup?, Definition.lookup?]
  split
  · next earlier heq => simp [heq]
  · next heq =>
    simp only [heq, true_and, Except.ok.injEq]
    exact eq_comm

theorem Document.foldlM_push_eq_ok_iff {name : String} {lines : List String}
    {namespaces : Table String} {definitions : List Definition} {result : Document} :
    definitions.foldlM push ⟨name, lines, namespaces, []⟩ = .ok result ↔
      (definitions.map (·.name)).Nodup ∧ result = ⟨name, lines, namespaces, definitions⟩ := by
  have hfold : definitions.foldlM push (Document.mk name lines namespaces []) = .ok result ↔
      (([] ++ definitions.map id).map Definition.name).Nodup ∧
        result = Document.mk name lines namespaces ([] ++ definitions.map id) := by
    apply Steps.foldlM_eq_ok_iff_nodup (Document.mk name lines namespaces) id Definition.name
    · intro definition _ done next
      exact push_eq_ok_iff
    · exact List.nodup_nil
  rwa [List.map_id, List.nil_append] at hfold

namespace Decoding

open Namespace (Apart ofMembers)

theorem faultless_eq_ok_iff {α : Type} {result : Except Fault α} {value : α} :
    faultless result = .ok value ↔ result = .ok value := by
  rcases result with fault | other
  · simp [faultless]
  · simp [faultless]

theorem namespaces_eq_ok_iff {members : List (String × Json)} {table : Table String} :
    namespaces members = .ok table ↔
      ∃ pairs : List (String × String),
        members = pairs.map (fun pair => (pair.1, .string pair.2)) ∧ table = .ofPairs pairs := by
  have hentry : ∀ (member : String × Json) (pair : String × String),
      (do
        let name ← asString "namespace name" member.2
        return (member.1, name) : Decoded (String × String)) = .ok pair ↔
        member = (pair.1, .string pair.2) := by
    rintro ⟨target, value⟩ ⟨name, space⟩
    simp only [Steps.bind_eq_ok, Steps.pure_eq_ok, asString_eq_ok_iff, Prod.mk.injEq]
    constructor
    · rintro ⟨_, rfl, rfl, rfl⟩
      exact ⟨rfl, rfl⟩
    · rintro ⟨rfl, rfl⟩
      exact ⟨_, rfl, rfl, rfl⟩
  simp only [namespaces, Steps.bind_eq_ok, Steps.pure_eq_ok, Steps.mapM_eq_ok_iff, hentry]
  simp only [← List.forall₂_map_right_iff, List.forall₂_eq_eq_eq, eq_comm (a := table)]

theorem document_eq_ok_iff {name : String} {json : Json} {value : Document} :
    document name json = .ok value ↔
      value.name = name ∧ value.Written json ∧ (value.definitions.map (·.name)).Nodup := by
  simp only [document, Steps.bind_eq_ok, asObject_eq_ok_iff, get_eq_ok_iff, namespaces_eq_ok_iff,
    arrayAt_eq_ok_iff, mapM_asString_eq_ok_iff, definitionsFrom_eq_ok_iff, faultless_eq_ok_iff,
    Document.foldlM_push_eq_ok_iff]
  constructor
  · rintro ⟨members, rfl, _, hget, _, rfl, table, ⟨pairs, rfl, rfl⟩, _, hlines, lines, rfl, items,
      hitems, definitions, hdefinitions, hnames, rfl⟩
    exact ⟨rfl, ⟨⟨pairs, (Json.under_eq_iff (by simp)).2 hget, rfl⟩, hlines, items, hitems,
      hdefinitions⟩, hnames⟩
  · rintro ⟨rfl, ⟨⟨pairs, hpairs, htable⟩, hlines, items, hitems, hdefinitions⟩, hnames⟩
    have hget := (Json.under_eq_iff (by simp)).1 hpairs
    obtain ⟨members, rfl⟩ := Json.exists_object hget
    refine ⟨members, rfl, _, hget, _, rfl, _, ⟨pairs, rfl, rfl⟩, _, hlines, _, rfl, items, hitems,
      value.definitions, hdefinitions, hnames, ?_⟩
    rw [← htable]

theorem referenced_eq_ok_iff {documents : List Document} {space : String} {listed : Kind}
    {reference : Reference} {definition : Definition} :
    referenced documents space listed reference = .ok definition ↔
      ∃ document, documents.find? (·.name == reference.document) = some document ∧
        document.lookup? reference.identifier = some definition ∧ definition.kind = listed := by
  rw [referenced]
  constructor
  · intro h
    split at h
    · cases h
    · next found hfound =>
      split at h
      · next hkind =>
        cases h
        obtain ⟨document, hdocument, hdefinition⟩ := Option.bind_eq_some_iff.1 hfound
        exact ⟨document, hdocument, hdefinition, hkind⟩
      · cases h
  · rintro ⟨document, hdocument, hdefinition, hkind⟩
    simp [hdocument, hdefinition, hkind]

/-- A reference registers the member that it lists, if its name is new. -/
theorem register_eq_ok_iff {documents : List Document} {listed : Kind} {json : Json}
    {target name : String} {done : List Member} {result : Namespace} :
    register documents listed (ofMembers target name done) json = .ok result ↔
      ∃ member, Member.Listed documents listed json member ∧
        member.identifier ∉ done.map Member.identifier ∧
        result = ofMembers target name (done ++ [member]) := by
  simp only [register, Steps.bind_eq_ok, asObject_eq_ok_iff, stringAt_eq_ok_iff,
    referenced_eq_ok_iff, faultless_eq_ok_iff, Namespace.register_ofMembers_eq_ok_iff]
  constructor
  · rintro ⟨members, rfl, _, hsource, _, hidentifier, definition,
      ⟨document, hdocument, hdefinition, hkind⟩, hnew, rfl⟩
    obtain rfl := (Lookup.mem_of_find? hdocument).2
    obtain rfl := (Lookup.mem_of_find? hdefinition).2
    exact ⟨.ofDefinition document.name definition,
      ⟨⟨hsource, hidentifier⟩, hkind, document, definition, hdocument, hdefinition, rfl⟩, hnew,
      rfl⟩
  · rintro ⟨member, ⟨⟨hsource, hidentifier⟩, hkind, document, definition, hdocument, hdefinition,
      heq⟩, hnew, rfl⟩
    obtain ⟨members, rfl⟩ := Json.exists_object (Json.under_string.1 hsource)
    have hname := (Lookup.mem_of_find? hdocument).2
    refine ⟨members, rfl, _, hsource, _, hidentifier, definition,
      ⟨document, hdocument, hdefinition, ?_⟩, ?_, ?_⟩
    · rw [← hkind, heq]
      rfl
    · rwa [heq] at hnew
    · rw [← hname, ← heq]

theorem registerGroup_eq_ok_iff {documents : List Document} {group : String × Json}
    {space result : Namespace} :
    registerGroup documents space group = .ok result ↔
      ∃ kind : Kind, group.1 = kind.word ∧ ∃ items, group.2 = .array items ∧
        items.foldlM (register documents kind) space = .ok result := by
  rw [registerGroup]
  split
  · next hnone =>
    simp only [refuse, reduceCtorEq, false_iff, not_exists, not_and]
    rintro kind hword
    rw [hword, Kind.ofWord?_eq_some_iff.2 rfl] at hnone
    cases hnone
  · next listed hsome =>
    simp only [Steps.bind_eq_ok, asArray_eq_ok_iff]
    constructor
    · intro h
      exact ⟨listed, (Kind.ofWord?_eq_some_iff.1 hsome).symm, h⟩
    · rintro ⟨kind, hword, h⟩
      rw [hword, Kind.ofWord?_eq_some_iff.2 rfl] at hsome
      cases hsome
      exact h

/-- Groups register what they list, item by item. -/
theorem foldlM_registerGroup_eq_ok_iff {documents : List Document}
    {groups : List (String × Json)} {space result : Namespace} :
    groups.foldlM (registerGroup documents) space = .ok result ↔
      Json.Grouped groups ∧ (Json.listed groups).foldlM
        (fun space item => register documents item.1 space item.2) space = .ok result := by
  induction groups generalizing space with
  | nil => simp [Json.Grouped, Json.listed]
  | cons group groups ih =>
    obtain ⟨word, value⟩ := group
    have hlisted : Json.listed ((word, value) :: groups) =
        ((Kind.ofWord? word).toList.flatMap fun kind => value.items.map (kind, ·)) ++
          Json.listed groups := List.flatMap_cons
    rw [List.foldlM_cons, Steps.bind_eq_ok, hlisted, List.foldlM_append, Steps.bind_eq_ok,
      Json.Grouped, List.forall_mem_cons, ← Json.Grouped]
    simp only [ih, registerGroup_eq_ok_iff]
    constructor
    · rintro ⟨next, ⟨kind, rfl, items, rfl, hitems⟩, hgrouped, hrest⟩
      refine ⟨⟨⟨⟨kind, rfl⟩, items, rfl⟩, hgrouped⟩, next, ?_, hrest⟩
      rw [Kind.ofWord?_eq_some_iff.2 rfl]
      simpa [Json.items, List.foldlM_map] using hitems
    · rintro ⟨⟨⟨⟨kind, rfl⟩, items, rfl⟩, hgrouped⟩, next, hitems, hrest⟩
      rw [Kind.ofWord?_eq_some_iff.2 rfl] at hitems
      refine ⟨next, ⟨kind, rfl, items, rfl, ?_⟩, hgrouped, hrest⟩
      simpa [Json.items, List.foldlM_map] using hitems

/-- The groups of a namespace that has no members yet are read as what they list. -/
theorem foldlM_groups_eq_ok_iff {documents : List Document} {target name : String}
    {groups : List (String × Json)} {result : Namespace} :
    groups.foldlM (registerGroup documents) (.empty target name) = .ok result ↔
      result.Listed documents target (name, .object groups) := by
  have hfold : (Json.listed groups).foldlM
        (fun space item => register documents item.1 space item.2) (ofMembers target name []) =
          .ok result ↔
      ∃ members, List.Forall₂ (fun item member => Member.Listed documents item.1 item.2 member)
          (Json.listed groups) members ∧ Apart ([] ++ members) ∧
        result = ofMembers target name ([] ++ members) := by
    apply Steps.foldlM_eq_ok_iff_apart (ofMembers target name) _ Member.identifier
    · intro item _ done next
      exact register_eq_ok_iff
    · exact List.nodup_nil
  have hempty : Namespace.empty target name = ofMembers target name [] := rfl
  simp only [List.nil_append] at hfold
  rw [foldlM_registerGroup_eq_ok_iff, hempty, hfold]
  constructor
  · rintro ⟨hgrouped, hmembers⟩
    exact ⟨⟨groups, rfl, hgrouped⟩, hmembers⟩
  · rintro ⟨⟨_, heq, hgrouped⟩, hmembers⟩
    cases heq
    exact ⟨hgrouped, hmembers⟩

/-- An entry whose name is new to the target adds the namespace that it lists. -/
theorem addNamespace_eq_ok_iff {documents : List Document} {target : String}
    {done : List Namespace} {entry : String × Json} (hname : entry.1 ∉ done.map (·.name))
    {result : Target} :
    addNamespace documents ⟨target, done⟩ entry = .ok result ↔
      ∃ space : Namespace, space.Listed documents target entry ∧
        result = ⟨target, done ++ [space]⟩ := by
  obtain ⟨name, json⟩ := entry
  have hput : ∀ space : Namespace, space.Listed documents target (name, json) →
      Target.put ⟨target, done⟩ space = ⟨target, done ++ [space]⟩ := by
    rintro space ⟨-, members, -, -, rfl⟩
    exact Target.put_of_notMem hname
  have hempty : Target.namespaceOrEmpty ⟨target, done⟩ name = .empty target name :=
    Target.namespaceOrEmpty_of_notMem hname
  simp only [addNamespace, Steps.bind_eq_ok, Steps.pure_eq_ok, asObject_eq_ok_iff, hempty,
    foldlM_groups_eq_ok_iff]
  constructor
  · rintro ⟨groups, rfl, space, hspace, rfl⟩
    exact ⟨space, hspace, hput space hspace⟩
  · rintro ⟨space, hspace, rfl⟩
    obtain ⟨groups, rfl, -⟩ := hspace.grouped
    exact ⟨groups, rfl, space, hspace, hput space hspace⟩

theorem foldlM_addNamespace_eq_ok_iff {documents : List Document} {target : String}
    {entries : List (String × Json)} {done : List Namespace}
    (hnames : (done.map (·.name) ++ Table.keys entries).Nodup) {result : Target} :
    entries.foldlM (addNamespace documents) ⟨target, done⟩ = .ok result ↔
      ∃ spaces, List.Forall₂ (fun entry space => Namespace.Listed documents target entry space)
        entries spaces ∧ result = ⟨target, done ++ spaces⟩ := by
  induction entries generalizing done with
  | nil =>
    simp only [List.foldlM_nil, Steps.pure_eq_ok, List.forall₂_nil_left_iff, exists_eq_left,
      List.append_nil]
    exact eq_comm
  | cons entry entries ih =>
    rw [Table.keys, List.map_cons] at hnames
    have hname : entry.1 ∉ done.map (·.name) := by
      intro hmem
      exact (List.nodup_append.1 hnames).2.2 _ hmem _ List.mem_cons_self rfl
    have hnext : ∀ space : Namespace, space.Listed documents target entry →
        (((done ++ [space]).map (·.name)) ++ Table.keys entries).Nodup := by
      rintro space ⟨-, members, -, -, rfl⟩
      rwa [List.map_append, List.append_assoc]
    simp only [List.foldlM_cons, Steps.bind_eq_ok, addNamespace_eq_ok_iff hname,
      List.forall₂_cons_left_iff]
    constructor
    · rintro ⟨_, ⟨space, hspace, rfl⟩, hrest⟩
      obtain ⟨spaces, hspaces, rfl⟩ := (ih (hnext space hspace)).1 hrest
      exact ⟨space :: spaces, ⟨space, spaces, hspace, hspaces, rfl⟩, by rw [← List.append_cons]⟩
    · rintro ⟨_, ⟨space, spaces, hspace, hspaces, rfl⟩, rfl⟩
      refine ⟨_, ⟨space, hspace, rfl⟩, ?_⟩
      exact (ih (hnext space hspace)).2 ⟨spaces, hspaces, by rw [← List.append_cons]⟩

/-- A target is read from an object with keys apart as the namespaces that its entries list. -/
theorem target_eq_ok_iff {documents : List Document} {name : String} {json : Json}
    (hkeys : (Table.keys json.entries).Nodup) {value : Target} :
    target documents name json = .ok value ↔
      value.name = name ∧ ∃ entries, json = .object entries ∧
        List.Forall₂ (fun entry space => Namespace.Listed documents name entry space) entries
          value.namespaces := by
  have hfold : ∀ entries, (Table.keys entries).Nodup →
      (entries.foldlM (addNamespace documents) ⟨name, []⟩ = .ok value ↔
        ∃ spaces, List.Forall₂ (fun entry space => Namespace.Listed documents name entry space)
          entries spaces ∧ value = ⟨name, spaces⟩) := by
    intro entries h
    have hnames : (([] : List Namespace).map (·.name) ++ Table.keys entries).Nodup := h
    exact foldlM_addNamespace_eq_ok_iff hnames
  simp only [target, Steps.bind_eq_ok, asObject_eq_ok_iff]
  constructor
  · rintro ⟨entries, rfl, h⟩
    obtain ⟨spaces, hspaces, rfl⟩ := (hfold entries hkeys).1 h
    exact ⟨rfl, entries, rfl, hspaces⟩
  · rintro ⟨rfl, entries, rfl, hspaces⟩
    exact ⟨entries, rfl, (hfold entries hkeys).2 ⟨_, hspaces, rfl⟩⟩

/-- A model is read from an object that holds its documents and, resolved among these, its
targets. -/
theorem model_eq_ok_iff {json : Json} {value : Model} :
    model json = .ok value ↔
      value.warnings = [] ∧ json.under "parsed" = .bool value.parsed ∧
        (∃ entries, json.under "documents" = .object entries ∧
          List.Forall₂ (fun entry found => document entry.1 entry.2 = .ok found) entries
            value.documents) ∧
        ∃ entries, json.under "targets" = .object entries ∧
          List.Forall₂ (fun entry found => target value.documents entry.1 entry.2 = .ok found)
            entries value.targets := by
  simp only [model, Steps.bind_eq_ok, Steps.pure_eq_ok, asObject_eq_ok_iff, get_eq_ok_iff,
    boolAt_eq_ok_iff, Steps.mapM_eq_ok_iff, within_eq_ok_iff]
  constructor
  · rintro ⟨members, rfl, parsed, hparsed, _, hdocuments, entries, rfl, documents, hread, _,
      htargets, others, rfl, targets, hresolved, rfl⟩
    exact ⟨rfl, hparsed, ⟨entries, (Json.under_eq_iff (by simp)).2 hdocuments, hread⟩, others,
      (Json.under_eq_iff (by simp)).2 htargets, hresolved⟩
  · rintro ⟨hwarnings, hparsed, ⟨entries, hdocuments, hread⟩, others, htargets, hresolved⟩
    have hfound := (Json.under_eq_iff (by simp)).1 hparsed
    obtain ⟨members, rfl⟩ := Json.exists_object hfound
    refine ⟨members, rfl, value.parsed, hparsed, _, (Json.under_eq_iff (by simp)).1 hdocuments,
      entries, rfl, value.documents, hread, _, (Json.under_eq_iff (by simp)).1 htargets, others,
      rfl, value.targets, hresolved, ?_⟩
    rw [← hwarnings]

end Decoding

end ThriftIdl

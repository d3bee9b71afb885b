import ThriftIdl.Proofs.Model.Listed
import ThriftIdl.Proofs.Model.Records

/-!
Models in their text. A model is portable if its definitions are, names stand apart wherever they
must, and every member of a namespace is a definition of a document. A portable model is read back
from what is written for it.
-/

namespace ThriftIdl

/-- The document's definitions are portable and have names apart, and so have its targets. -/
structure Document.Portable (document : Document) : Prop where
  definitions : ∀ definition ∈ document.definitions, definition.Portable
  nodup_names : (document.definitions.map (·.name)).Nodup
  nodup_keys : document.namespaces.keys.Nodup

/-- The namespace's members stand grouped by kind, have names apart, and stand for
definitions. -/
structure Namespace.Portable (documents : List Document) (space : Namespace) : Prop where
  grouped : Namespace.grouped space.members = space.members
  apart : Namespace.Apart space.members
  resolved : ∀ member ∈ space.members, member.Resolved documents

/-- The target's namespaces are portable and have names apart. -/
structure Target.Portable (documents : List Document) (target : Target) : Prop where
  nodup_names : (target.namespaces.map (·.name)).Nodup
  target_eq : ∀ space ∈ target.namespaces, space.target = target.name
  namespaces : ∀ space ∈ target.namespaces, space.Portable documents

/-- The model's documents and targets are portable and have names apart. -/
structure Model.Portable (model : Model) : Prop where
  documents : ∀ document ∈ model.documents, document.Portable
  nodup_documents : (model.documents.map (·.name)).Nodup
  targets : ∀ target ∈ model.targets, target.Portable model.documents
  nodup_targets : (model.targets.map (·.name)).Nodup

theorem Document.written_toJson {document : Document} (h : document.Portable) :
    document.Written document.toJson where
  namespaces := ⟨document.namespaces, rfl, (Table.ofPairs_eq_self h.nodup_keys).symm⟩
  lines := rfl
  definitions := Json.lists_map fun definition hdefinition =>
    Definition.written_toJson (h.definitions definition hdefinition)

/-- What is written for the references of some kinds lists the members of those kinds. -/
theorem Json.listed_groups (kinds : List Kind) (members : List Member) :
    listed (((kinds.map fun kind =>
        (kind, (members.filter (·.kind == kind)).map (·.reference))).filter (!·.2.isEmpty)).map
          fun group => (group.1.word, .array (group.2.map Reference.toJson))) =
      (Namespace.ofKinds kinds members).map fun member =>
        (member.kind, member.reference.toJson) := by
  induction kinds with
  | nil => rfl
  | cons kind kinds ih =>
    have hsplit : Namespace.ofKinds (kind :: kinds) members =
        members.filter (·.kind == kind) ++ Namespace.ofKinds kinds members := List.flatMap_cons
    rw [hsplit, List.map_append, ← ih, List.map_cons]
    by_cases hnone : members.filter (·.kind == kind) = []
    · rw [hnone]
      rfl
    · have hkind : ∀ member ∈ members.filter (·.kind == kind), member.kind = kind :=
        fun member hmember => beq_iff_eq.1 (List.mem_filter.1 hmember).2
      rw [List.filter_cons_of_pos (by simpa using hnone), List.map_cons, listed, List.flatMap_cons,
        ← listed, Kind.ofWord?_eq_some_iff.2 rfl]
      congr 1
      simp only [Option.toList_some, List.flatMap_singleton, items, List.map_map]
      apply List.map_congr_left
      intro member hmember
      rw [hkind member hmember]
      rfl

/-- What is written for a portable namespace lists it. -/
theorem Namespace.listed_toJson {documents : List Document} {space : Namespace}
    (h : space.Portable documents) :
    space.Listed documents space.target (space.name, space.toJson) where
  grouped := by
    refine ⟨_, rfl, ?_⟩
    intro group hgroup
    obtain ⟨⟨kind, references⟩, -, rfl⟩ := List.mem_map.1 hgroup
    exact ⟨⟨kind, rfl⟩, _, rfl⟩
  members := by
    have hlisted : Json.listed space.toJson.entries =
        space.members.map fun member => (member.kind, member.reference.toJson) := by
      rw [← h.grouped]
      exact Json.listed_groups Kind.all space.members
    refine ⟨space.members, ?_, h.apart, ?_⟩
    · rw [hlisted, List.forall₂_map_left_iff, List.forall₂_same]
      exact fun member hmember => ⟨⟨rfl, rfl⟩, rfl, h.resolved member hmember⟩
    · rw [ofMembers, h.grouped]

namespace Decoding

/-- What is written for a document is read as its definitions, one added after the other. -/
theorem document_toJson_eq {value : Document} (hkeys : value.namespaces.keys.Nodup)
    (h : ∀ definition ∈ value.definitions, definition.Portable) :
    document value.name value.toJson = faultless
      (value.definitions.foldlM Document.push ⟨value.name, value.lines, value.namespaces, []⟩) := by
  have hnamespaces : namespaces (value.namespaces.map fun entry => (entry.1, .string entry.2)) =
      .ok value.namespaces :=
    namespaces_eq_ok_iff.2 ⟨value.namespaces, rfl, (Table.ofPairs_eq_self hkeys).symm⟩
  have hlines : (value.lines.map Json.string).mapM (asString "line") = .ok value.lines :=
    mapM_asString_eq_ok_iff.2 rfl
  have hdefinitions : definitionsFrom 0 (value.definitions.map Definition.toJson) =
      .ok value.definitions := by
    rw [definitionsFrom_eq_ok_iff, List.forall₂_map_left_iff, List.forall₂_same]
    exact fun definition hdefinition => Definition.written_toJson (h definition hdefinition)
  rw [document, Document.toJson]
  rw [Steps.bind_of_ok (asObject_eq_ok_iff.2 rfl), Steps.bind_of_ok (get_eq_ok_iff.2 rfl),
    Steps.bind_of_ok (asObject_eq_ok_iff.2 rfl), Steps.bind_of_ok hnamespaces,
    Steps.bind_of_ok (arrayAt_eq_ok_iff.2 rfl), Steps.bind_of_ok hlines,
    Steps.bind_of_ok (arrayAt_eq_ok_iff.2 rfl), Steps.bind_of_ok hdefinitions]

theorem document_toJson {value : Document} (h : value.Portable) :
    document value.name value.toJson = .ok value :=
  document_eq_ok_iff.2 ⟨rfl, Document.written_toJson h, h.nodup_names⟩

theorem target_toJson {documents : List Document} {value : Target} (h : value.Portable documents) :
    target documents value.name value.toJson = .ok value := by
  have hkeys : (Table.keys value.toJson.entries).Nodup := by
    have heq : Table.keys value.toJson.entries = value.namespaces.map (·.name) := List.map_map
    rw [heq]
    exact h.nodup_names
  refine (target_eq_ok_iff hkeys).2 ⟨rfl, _, rfl, ?_⟩
  rw [List.forall₂_map_left_iff, List.forall₂_same]
  intro space hspace
  rw [← h.target_eq space hspace]
  exact Namespace.listed_toJson (h.namespaces space hspace)

/-- A portable model is read back from what is written for it, but for its warnings. -/
theorem model_toJson {value : Model} (h : value.Portable) :
    model value.toJson = .ok { value with warnings := [] } := by
  refine model_eq_ok_iff.2 ⟨rfl, rfl, ⟨_, rfl, ?_⟩, _, rfl, ?_⟩
  · rw [List.forall₂_map_left_iff, List.forall₂_same]
    exact fun found hfound => document_toJson (h.documents found hfound)
  · rw [List.forall₂_map_left_iff, List.forall₂_same]
    exact fun found hfound => target_toJson (h.targets found hfound)

end Decoding

end ThriftIdl

import ThriftIdl.Proofs.Model.Listed

/-!
Which JSON is a model. It must have the shape of one: the members that are needed, of the right
form. Beyond that only names matter: those of a document's definitions and of a namespace's
references stand apart, and every reference names a definition of its kind. What is read then lists
the references as the JSON does.
-/

namespace ThriftIdl

namespace Json

/-- The value is an array of references under the word of a kind. -/
structure GroupShaped (group : String × Json) : Prop where
  kind : ∃ kind : Kind, group.1 = kind.word
  items : ∃ items, group.2 = .array items ∧
    ∀ item ∈ items, ∃ reference : Reference, reference.Written item

/-- The value is an object of namespaces, and these are objects of groups. -/
def TargetShaped (json : Json) : Prop :=
  ∃ spaces, json = .object spaces ∧ ∀ space ∈ spaces,
    ∃ groups, space.2 = .object groups ∧ ∀ group ∈ groups, GroupShaped group

/-- The value has the shape of a model: it writes documents and lists references. -/
structure Shaped (json : Json) : Prop where
  parsed : ∃ value, json.under "parsed" = .bool value
  documents : ∃ entries, json.under "documents" = .object entries ∧
    ∀ entry ∈ entries, ∃ document : Document, document.Written entry.2
  targets : ∃ entries, json.under "targets" = .object entries ∧
    ∀ entry ∈ entries, TargetShaped entry.2

/-- Among the documents, the one that the reference names has a definition of the kind with the
identifier of the reference. -/
def Defined (documents : List (String × Json)) (kind : String) (reference : Json) : Prop :=
  ∃ document ∈ documents, reference.under "document" = .string document.1 ∧
    ∃ definition ∈ (document.2.under "definitions").items,
      definition.under "identifier" = reference.under "identifier" ∧
        definition.under "kind" = .string kind

/-- Every reference in the groups of a namespace is defined, and none of them are of one name, be
it in one group or in two. -/
structure SpaceConsistent (documents groups : List (String × Json)) : Prop where
  defined : ∀ group ∈ groups, ∀ reference ∈ group.2.items, Defined documents group.1 reference
  apart : (column "identifier" (groups.flatMap (·.2.items))).Nodup

/-- No document lists two definitions of one name, and all namespaces are consistent. -/
structure Consistent (json : Json) : Prop where
  apart : ∀ document ∈ (json.under "documents").entries,
    (column "identifier" (document.2.under "definitions").items).Nodup
  spaces : ∀ target ∈ (json.under "targets").entries, ∀ space ∈ target.2.entries,
    SpaceConsistent (json.under "documents").entries space.2.entries

end Json

/-- The namespace has the name of the entry, and of each kind the references that the entry lists,
in its order. -/
structure Namespace.Lists (entry : String × Json) (space : Namespace) : Prop where
  name_eq : space.name = entry.1
  references : ∀ kind : Kind, List.Forall₂ (fun item reference => Reference.Written reference item)
    (entry.2.under kind.word).items (space.referencesOf kind)

/-- The target has the name of the entry and the namespaces that the entry lists, in its order. -/
structure Target.Lists (entry : String × Json) (target : Target) : Prop where
  name_eq : target.name = entry.1
  namespaces : List.Forall₂ Namespace.Lists entry.2.entries target.namespaces

/-- The model is what the value writes: the documents, and the references of all namespaces. -/
structure Model.Lists (json : Json) (model : Model) : Prop where
  parsed : json.under "parsed" = .bool model.parsed
  documents : List.Forall₂ (fun entry document => document.name = entry.1 ∧
    Document.Written document entry.2) (json.under "documents").entries model.documents
  targets : List.Forall₂ Target.Lists (json.under "targets").entries model.targets

namespace Json

theorem listed_items {groups : List (String × Json)} (h : Grouped groups) :
    (listed groups).map (·.2) = groups.flatMap (·.2.items) := by
  induction groups with
  | nil => rfl
  | cons group groups ih =>
    rw [Grouped, List.forall_mem_cons, ← Grouped] at h
    obtain ⟨⟨⟨kind, hword⟩, -⟩, hrest⟩ := h
    simp [listed, List.flatMap_cons, hword, Kind.ofWord?_eq_some_iff.2 rfl, ← ih hrest, Function.comp_def]

theorem mem_listed {groups : List (String × Json)} {kind : Kind} {item : Json} :
    (kind, item) ∈ listed groups ↔
      ∃ group ∈ groups, group.1 = kind.word ∧ item ∈ group.2.items := by
  simp only [listed, List.mem_flatMap, Option.mem_toList, List.mem_map, Prod.mk.injEq]
  constructor
  · rintro ⟨group, hgroup, other, hkind, _, hitem, rfl, rfl⟩
    exact ⟨group, hgroup, (Kind.ofWord?_eq_some_iff.1 hkind).symm, hitem⟩
  · rintro ⟨group, hgroup, hword, hitem⟩
    exact ⟨group, hgroup, kind, by rw [hword, Kind.ofWord?_eq_some_iff.2 rfl], item, hitem, rfl, rfl⟩

theorem under_cons (key word : String) (value : Json) (members : List (String × Json)) :
    (object ((word, value) :: members)).under key =
      if key = word then value else (object members).under key := by
  change (Table.get? ((word, value) :: members) key).getD null = _
  rw [Table.get?_cons]
  split
  · rfl
  · rfl

/-- Of one kind, groups with keys apart list what stands under its word. -/
theorem listed_filter {groups : List (String × Json)} (hkeys : (Table.keys groups).Nodup)
    (kind : Kind) :
    ((listed groups).filter (·.1 == kind)).map (·.2) = ((object groups).under kind.word).items := by
  induction groups with
  | nil => rfl
  | cons group groups ih =>
    obtain ⟨word, value⟩ := group
    rw [Table.keys, List.map_cons, List.nodup_cons] at hkeys
    have hsplit : listed ((word, value) :: groups) =
        (Kind.ofWord? word).toList.flatMap (fun other => value.items.map (other, ·)) ++
          listed groups := List.flatMap_cons
    rw [hsplit, List.filter_append, List.map_append, ih hkeys.2, under_cons]
    by_cases hword : kind.word = word
    · have hnone : (object groups).under kind.word = null := by
        have hkey : kind.word ∉ Table.keys groups := by
          rw [hword]
          exact hkeys.1
        rw [under, Option.getD_eq_iff]
        exact Or.inr ⟨Table.get?_eq_none_iff.2 hkey, rfl⟩
      have hempty : items null = [] := rfl
      rw [if_pos hword, hnone, hempty, ← hword, Kind.ofWord?_eq_some_iff.2 rfl]
      simp [List.filter_map, Function.comp_def]
    · have hother : ∀ other ∈ Kind.ofWord? word, other ≠ kind := by
        rintro other hother rfl
        exact hword (Kind.ofWord?_eq_some_iff.1 hother)
      rw [if_neg hword]
      cases hof : Kind.ofWord? word with
      | none => rfl
      | some other => simp [List.filter_map, Function.comp_def, hother other hof]

end Json

namespace Decoding

open Json (Defined GroupShaped Grouped TargetShaped SpaceConsistent column)

/-- The documents are those that the entries write, each with its name; no name stands twice among
them, nor among the definitions of one. -/
structure Known (entries : List (String × Json)) (documents : List Document) : Prop where
  written : List.Forall₂ (fun entry document => document.name = entry.1 ∧
    Document.Written document entry.2) entries documents
  nodup_keys : (Table.keys entries).Nodup
  nodup_names : ∀ document ∈ documents, (document.definitions.map (·.name)).Nodup

variable {entries : List (String × Json)} {documents : List Document}

theorem Known.nodup_documents (h : Known entries documents) : (documents.map (·.name)).Nodup := by
  have heq : documents.map (·.name) = entries.map Prod.fst :=
    Steps.map_eq_of_forall₂ h.written fun _ _ h => h.1
  rw [heq]
  exact h.nodup_keys

/-- What an item lists is there exactly if the item is a reference and is defined in the JSON of the
documents. -/
theorem Known.exists_listed_iff (h : Known entries documents) {kind : Kind} {item : Json} :
    (∃ member, Member.Listed documents kind item member) ↔
      (∃ reference : Reference, reference.Written item) ∧ Defined entries kind.word item := by
  constructor
  · rintro ⟨member, hreference, rfl, document, definition, hdocument, hdefinition, heq⟩
    refine ⟨⟨_, hreference⟩, ?_⟩
    obtain ⟨hmem, hname⟩ := Lookup.mem_of_find? hdocument
    obtain ⟨entry, hentry, hentryName, hwritten⟩ :=
      Steps.exists_right_of_forall₂ h.written.flip hmem
    obtain ⟨items, hitems, hdefinitions⟩ := hwritten.definitions
    obtain ⟨hmem, hidentifier⟩ := Lookup.mem_of_find? hdefinition
    obtain ⟨found, hfound, hwritten⟩ := Steps.exists_right_of_forall₂ hdefinitions.flip hmem
    refine ⟨entry, hentry, ?_, found, ?_, ?_, ?_⟩
    · rw [hreference.document, ← hentryName, hname]
    · rwa [hitems]
    · rw [hwritten.name, hreference.identifier, hidentifier]
      rfl
    · rw [hwritten.kind, heq]
      rfl
  · rintro ⟨⟨reference, hreference⟩, entry, hentry, hdocument, found, hfound, hidentifier, hkind⟩
    obtain ⟨document, hmem, hname, hwritten⟩ := Steps.exists_right_of_forall₂ h.written hentry
    obtain ⟨items, hitems, hdefinitions⟩ := hwritten.definitions
    rw [hitems] at hfound
    obtain ⟨definition, hdefinition, hwritten⟩ :=
      Steps.exists_right_of_forall₂ hdefinitions hfound
    rw [hreference.document, Json.string.injEq, ← hname] at hdocument
    rw [hwritten.name, hreference.identifier, Json.string.injEq] at hidentifier
    rw [hwritten.kind, Json.string.injEq] at hkind
    refine ⟨.ofDefinition document.name definition, ⟨?_, ?_⟩, Kind.word_injective hkind, document,
      definition, ?_, ?_, rfl⟩
    · rw [hreference.document, hdocument]
      rfl
    · rw [hreference.identifier, ← hidentifier]
      rfl
    · exact (Lookup.find?_eq_some_iff h.nodup_documents).2 ⟨hmem, rfl⟩
    · exact (Lookup.find?_eq_some_iff (h.nodup_names document hmem)).2 ⟨hdefinition, rfl⟩

/-- Groups have the shape that is needed exactly if they are groups and all that they list are
references. -/
theorem groupShaped_iff {groups : List (String × Json)} :
    (∀ group ∈ groups, GroupShaped group) ↔
      Grouped groups ∧ ∀ pair ∈ Json.listed groups, ∃ reference : Reference,
        reference.Written pair.2 := by
  constructor
  · intro h
    constructor
    · intro group hgroup
      obtain ⟨items, hitems, -⟩ := (h group hgroup).items
      exact ⟨(h group hgroup).kind, items, hitems⟩
    · rintro ⟨kind, item⟩ hpair
      obtain ⟨group, hgroup, -, hitem⟩ := Json.mem_listed.1 hpair
      obtain ⟨items, hitems, hall⟩ := (h group hgroup).items
      rw [hitems] at hitem
      exact hall item hitem
  · rintro ⟨hgrouped, hall⟩ group hgroup
    obtain ⟨⟨kind, hword⟩, items, hitems⟩ := hgrouped group hgroup
    refine ⟨⟨kind, hword⟩, items, hitems, ?_⟩
    intro item hitem
    apply hall (kind, item)
    exact Json.mem_listed.2 ⟨group, hgroup, hword, by rwa [hitems]⟩

/-- What stands in groups is defined exactly if each reference is, under the kind of its group. -/
theorem defined_iff {groups : List (String × Json)} (h : Grouped groups) :
    (∀ group ∈ groups, ∀ item ∈ group.2.items, Defined entries group.1 item) ↔
      ∀ pair ∈ Json.listed groups, Defined entries pair.1.word pair.2 := by
  constructor
  · rintro hall ⟨kind, item⟩ hpair
    obtain ⟨group, hgroup, hword, hitem⟩ := Json.mem_listed.1 hpair
    rw [← hword]
    exact hall group hgroup item hitem
  · intro hall group hgroup item hitem
    obtain ⟨⟨kind, hword⟩, -⟩ := h group hgroup
    rw [hword]
    exact hall (kind, item) (Json.mem_listed.2 ⟨group, hgroup, hword, hitem⟩)

/-- The members that groups list have the names of the references. -/
theorem apart_iff {groups : List (String × Json)} {members : List Member} (h : Grouped groups)
    (hmembers : List.Forall₂ (fun pair member => Member.Listed documents pair.1 pair.2 member)
      (Json.listed groups) members) :
    (column "identifier" (groups.flatMap (·.2.items))).Nodup ↔ Namespace.Apart members := by
  have hwritten : List.Forall₂ (fun item (member : Member) => member.reference.Written item)
      (groups.flatMap (·.2.items)) members := by
    rw [← Json.listed_items h, List.forall₂_map_left_iff]
    exact hmembers.imp fun _ _ h => h.reference
  exact Json.nodup_column_iff Json.string_injective (fun _ _ h => h.identifier) hwritten

/-- An entry lists a namespace exactly if it has the shape and is consistent. -/
theorem Known.exists_space_iff (h : Known entries documents) {target : String}
    {entry : String × Json} :
    (∃ space : Namespace, space.Listed documents target entry) ↔
      (∃ groups, entry.2 = .object groups ∧ ∀ group ∈ groups, GroupShaped group) ∧
        SpaceConsistent entries entry.2.entries := by
  obtain ⟨name, json⟩ := entry
  constructor
  · rintro ⟨space, ⟨groups, rfl, hgrouped⟩, members, hmembers, hapart, -⟩
    have hlisted := Steps.exists_forall₂_iff.1 ⟨members, hmembers⟩
    simp only [h.exists_listed_iff] at hlisted
    refine ⟨⟨groups, rfl, ?_⟩, ?_, ?_⟩
    · exact groupShaped_iff.2 ⟨hgrouped, fun pair hpair => (hlisted pair hpair).1⟩
    · exact (defined_iff hgrouped).2 fun pair hpair => (hlisted pair hpair).2
    · exact (apart_iff hgrouped hmembers).2 hapart
  · rintro ⟨⟨groups, rfl, hshaped⟩, hdefined, hapart⟩
    obtain ⟨hgrouped, hreferences⟩ := groupShaped_iff.1 hshaped
    have hall := (defined_iff hgrouped).1 hdefined
    obtain ⟨members, hmembers⟩ : ∃ members, List.Forall₂
        (fun pair member => Member.Listed documents pair.1 pair.2 member) (Json.listed groups)
          members := by
      rw [Steps.exists_forall₂_iff]
      intro pair hpair
      exact h.exists_listed_iff.2 ⟨hreferences pair hpair, hall pair hpair⟩
    exact ⟨_, ⟨groups, rfl, hgrouped⟩, members, hmembers, (apart_iff hgrouped hmembers).1 hapart,
      rfl⟩

theorem Known.exists_target_iff (h : Known entries documents) {name : String} {json : Json}
    (hkeyed : json.Keyed) :
    (∃ value, target documents name json = .ok value) ↔
      TargetShaped json ∧ ∀ space ∈ json.entries, SpaceConsistent entries space.2.entries := by
  simp only [target_eq_ok_iff hkeyed.nodup_keys]
  constructor
  · rintro ⟨value, rfl, spaces, rfl, hspaces⟩
    have hall := Steps.exists_forall₂_iff.1 ⟨_, hspaces⟩
    simp only [h.exists_space_iff] at hall
    exact ⟨⟨spaces, rfl, fun space hspace => (hall space hspace).1⟩,
      fun space hspace => (hall space hspace).2⟩
  · rintro ⟨⟨spaces, rfl, hshaped⟩, hconsistent⟩
    have hall : ∀ entry ∈ spaces, ∃ space : Namespace, space.Listed documents name entry :=
      fun entry hentry => h.exists_space_iff.2 ⟨hshaped entry hentry, hconsistent entry hentry⟩
    obtain ⟨values, hvalues⟩ := Steps.exists_forall₂_iff.2 hall
    exact ⟨⟨name, values⟩, rfl, spaces, rfl, hvalues⟩

theorem nodup_definitions_iff {json : Json} {value : Document} (h : value.Written json) :
    (column "identifier" (json.under "definitions").items).Nodup ↔
      (value.definitions.map (·.name)).Nodup := by
  obtain ⟨items, hitems, hdefinitions⟩ := h.definitions
  rw [hitems]
  exact Json.nodup_column_iff Json.string_injective (fun _ _ h => h.name) hdefinitions

theorem exists_document_iff {name : String} {json : Json} :
    (∃ value, document name json = .ok value) ↔
      (∃ value : Document, value.Written json) ∧
        (column "identifier" (json.under "definitions").items).Nodup := by
  simp only [document_eq_ok_iff]
  constructor
  · rintro ⟨value, -, hwritten, hnames⟩
    exact ⟨⟨value, hwritten⟩, (nodup_definitions_iff hwritten).2 hnames⟩
  · rintro ⟨⟨value, hwritten⟩, hnames⟩
    exact ⟨{ value with name := name }, rfl,
      ⟨hwritten.namespaces, hwritten.lines, hwritten.definitions⟩,
      (nodup_definitions_iff hwritten).1 hnames⟩

/-- Documents that were read are known. -/
theorem known_of_read (hkeys : (Table.keys entries).Nodup)
    (h : List.Forall₂ (fun entry found => document entry.1 entry.2 = .ok found) entries documents) :
    Known entries documents where
  written := h.imp fun _ _ hread =>
    ⟨(document_eq_ok_iff.1 hread).1, (document_eq_ok_iff.1 hread).2.1⟩
  nodup_keys := hkeys
  nodup_names := by
    intro found hfound
    obtain ⟨entry, -, hread⟩ := Steps.exists_right_of_forall₂ h.flip hfound
    exact (document_eq_ok_iff.1 hread).2.2

theorem exists_model_iff {json : Json} (hkeyed : json.Keyed) :
    (∃ value, model json = .ok value) ↔ json.Shaped ∧ json.Consistent := by
  have htargets : ∀ entry ∈ (json.under "targets").entries, entry.2.Keyed :=
    fun entry hentry => (hkeyed.under "targets").entry hentry
  simp only [model_eq_ok_iff]
  constructor
  · rintro ⟨value, -, hparsed, ⟨sources, hsources, hread⟩, entries, hentries, hresolved⟩
    have hkeys := (hkeyed.under "documents").nodup_keys
    rw [hsources] at hkeys
    have hknown := known_of_read hkeys hread
    have hdocument := Steps.exists_forall₂_iff.1 ⟨_, hread⟩
    have htarget := Steps.exists_forall₂_iff.1 ⟨_, hresolved⟩
    simp only [exists_document_iff] at hdocument
    rw [hentries] at htargets
    have hboth := fun entry hentry =>
      (hknown.exists_target_iff (htargets entry hentry)).1 (htarget entry hentry)
    refine ⟨⟨⟨_, hparsed⟩, ⟨sources, hsources, fun entry hentry => (hdocument entry hentry).1⟩,
      entries, hentries, fun entry hentry => (hboth entry hentry).1⟩, ?_, ?_⟩
    · rw [hsources]
      exact fun entry hentry => (hdocument entry hentry).2
    · rw [hsources, hentries]
      exact fun entry hentry => (hboth entry hentry).2
  · rintro ⟨⟨⟨parsed, hparsed⟩, ⟨sources, hsources, hwritten⟩, entries, hentries, hshaped⟩, hapart,
      hspaces⟩
    have hkeys := (hkeyed.under "documents").nodup_keys
    rw [hsources] at hkeys hapart hspaces
    rw [hentries] at hspaces htargets
    obtain ⟨documents, hread⟩ : ∃ documents, List.Forall₂
        (fun entry found => document entry.1 entry.2 = .ok found) sources documents := by
      rw [Steps.exists_forall₂_iff]
      exact fun entry hentry => exists_document_iff.2 ⟨hwritten entry hentry, hapart entry hentry⟩
    have hknown := known_of_read hkeys hread
    obtain ⟨targets, hresolved⟩ : ∃ targets, List.Forall₂
        (fun entry found => target documents entry.1 entry.2 = .ok found) entries targets := by
      rw [Steps.exists_forall₂_iff]
      exact fun entry hentry => (hknown.exists_target_iff (htargets entry hentry)).2
        ⟨hshaped entry hentry, hspaces entry hentry⟩
    exact ⟨{ documents, targets, parsed }, rfl, hparsed, ⟨sources, hsources, hread⟩, entries,
      hentries, hresolved⟩

/-- The references of a kind in a namespace are those that stand under its word. -/
theorem lists_of_listed {target : String} {entry : String × Json} {space : Namespace}
    (hkeys : (Table.keys entry.2.entries).Nodup) (h : space.Listed documents target entry) :
    space.Lists entry := by
  obtain ⟨⟨groups, hgroups, -⟩, members, hmembers, -, rfl⟩ := h
  rw [hgroups] at hmembers hkeys
  change (Table.keys groups).Nodup at hkeys
  refine ⟨rfl, ?_⟩
  intro kind
  have hkinds : List.Forall₂ (fun pair member => Member.Listed documents pair.1 pair.2 member)
      ((Json.listed groups).filter (·.1 == kind)) (members.filter (·.kind == kind)) := by
    apply List.rel_filter _ hmembers
    intro pair member hmember
    change (pair.1 == kind) = true ↔ (member.kind == kind) = true
    rw [hmember.kind_eq]
  have hreferences : (Namespace.ofMembers target entry.1 members).referencesOf kind =
      (members.filter (·.kind == kind)).map (·.reference) := by
    rw [Namespace.referencesOf, Namespace.ofMembers, Namespace.filter_grouped]
  rw [hgroups, ← Json.listed_filter hkeys, hreferences, List.forall₂_map_left_iff,
    List.forall₂_map_right_iff]
  exact hkinds.imp fun _ _ h => h.reference

theorem lists_of_model {json : Json} (hkeyed : json.Keyed) {value : Model}
    (h : model json = .ok value) : value.Lists json := by
  obtain ⟨-, hparsed, ⟨sources, hsources, hread⟩, entries, hentries, hresolved⟩ :=
    model_eq_ok_iff.1 h
  have hkeys : ∀ entry ∈ entries, entry.2.Keyed := by
    intro entry hentry
    have htargets := hkeyed.under "targets"
    rw [hentries] at htargets
    exact htargets.entry hentry
  refine ⟨hparsed, ?_, ?_⟩
  · rw [hsources]
    exact hread.imp fun _ _ hread =>
      ⟨(document_eq_ok_iff.1 hread).1, (document_eq_ok_iff.1 hread).2.1⟩
  · rw [hentries]
    have hboth := (List.forall₂_and_left _ _).2 ⟨hkeys, hresolved⟩
    refine hboth.imp ?_
    rintro entry found ⟨hkeyed, hfound⟩
    obtain ⟨hname, spaces, hspaces, hlisted⟩ := (target_eq_ok_iff hkeyed.nodup_keys).1 hfound
    refine ⟨hname, ?_⟩
    have hinner : ∀ space ∈ spaces, (Table.keys space.2.entries).Nodup := by
      intro space hspace
      rw [hspaces] at hkeyed
      exact (hkeyed.entry hspace).nodup_keys
    rw [hspaces]
    have hboth := (List.forall₂_and_left _ _).2 ⟨hinner, hlisted⟩
    exact hboth.imp fun _ _ h => lists_of_listed h.1 h.2

/-- JSON is read as a model exactly if it has the shape of one and its names are consistent. The
model then is what the JSON writes, with the references of each namespace in the order in which the
JSON lists them. -/
theorem accepts_iff {json : Json} (hkeyed : json.Keyed) :
    ((∃ value, model json = .ok value) ↔ json.Shaped ∧ json.Consistent) ∧
      ∀ value, model json = .ok value → value.Lists json :=
  ⟨exists_model_iff hkeyed, fun _ h => lists_of_model hkeyed h⟩

end Decoding

namespace Json

/-- Two documents that share a namespace: one has a constant, the other a type of the given name. -/
def sharing (name : String) : Json :=
  let written (word identifier : String) (more : List (String × Json)) : Json :=
    .object [("namespaces", .object [("go", .string "shared")]), ("lines", .array []),
      ("definitions", .array [.object (
        [("kind", .string word), ("identifier", .string identifier), ("line", .integer 0),
          ("type", .string "i32")] ++ more)])]
  let reference (document identifier : String) : Json :=
    .object [("document", .string document), ("identifier", .string identifier)]
  .object [("parsed", .bool true),
    ("documents", .object [
      ("a.thrift", written "const" "X" [("value", .string "1")]),
      ("b.thrift", written "typedef" name [])]),
    ("targets", .object [("go", .object [("shared", .object [
      ("const", .array [reference "a.thrift" "X"]),
      ("typedef", .array [reference "b.thrift" name])])])])]

theorem keyed_sharing (name : String) : (sharing name).Keyed := by
  simp [sharing, Table.keys]

/-- One name under two kinds is rejected, although both references point to definitions. -/
theorem accepts_sharing :
    (sharing "Y").Consistent ∧
      (∃ value, Decoding.model (sharing "Y") = .ok value ∧ value.Lists (sharing "Y")) ∧
      ¬(sharing "X").Consistent ∧ ¬∃ value, Decoding.model (sharing "X") = .ok value := by
  obtain ⟨value, hvalue⟩ : ∃ value, Decoding.model (sharing "Y") = .ok value := ⟨_, rfl⟩
  have hclash : ¬(sharing "X").Consistent := by
    intro h
    have hspace := h.spaces _ List.mem_cons_self _ List.mem_cons_self
    have hapart : [string "X", string "X"].Nodup := hspace.apart
    simp at hapart
  have haccepted := Decoding.accepts_iff (keyed_sharing "Y")
  have hrejected := Decoding.accepts_iff (keyed_sharing "X")
  exact ⟨(haccepted.1.1 ⟨value, hvalue⟩).2, ⟨value, hvalue, haccepted.2 value hvalue⟩, hclash,
    fun h => hclash (hrejected.1.1 h).2⟩

end Json

end ThriftIdl

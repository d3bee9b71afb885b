import Mathlib.Data.List.Lattice
import Mathlib.Data.List.Pairwise
import ThriftIdl.Proofs.Merging
import ThriftIdl.Proofs.Sorting

/-!
Resolution: what the targets of a set of documents show.
-/

namespace ThriftIdl.Target

open Namespace (Apart ofMembers)

/-- The target comes up among the documents. -/
def Used (documents : List Document) (name : String) : Prop :=
  name = defaultTarget ∨ ∃ document ∈ documents, name ∈ document.namespaces.keys

instance (documents : List Document) (name : String) : Decidable (Used documents name) :=
  inferInstanceAs (Decidable (name = defaultTarget ∨
    ∃ document ∈ documents, name ∈ document.namespaces.keys))

/-- No two documents with one namespace for the target define one name. -/
def Compatible (documents : List Document) (target : String) : Prop :=
  ∀ left ∈ documents, ∀ right ∈ documents, left.name ≠ right.name →
    left.namespaceFor? target = right.namespaceFor? target →
    ∀ first ∈ left.definitions, ∀ second ∈ right.definitions, first.name ≠ second.name

instance (documents : List Document) (target : String) : Decidable (Compatible documents target) :=
  inferInstanceAs (Decidable (∀ left ∈ documents, ∀ right ∈ documents, left.name ≠ right.name →
    left.namespaceFor? target = right.namespaceFor? target →
    ∀ first ∈ left.definitions, ∀ second ∈ right.definitions, first.name ≠ second.name))

/-- The namespaces that hold a definition, with what they hold of it. -/
def registrations (target : Target) (reference : Reference) : List (String × Member) :=
  target.namespaces.flatMap fun space =>
    (space.members.filter (·.reference == reference)).map (space.name, ·)

/-- The target shows every definition of the documents once, in its document's namespace and
under its kind, in the order of the documents, and nothing else. -/
structure Exposes (documents : List Document) (target : Target) : Prop where
  nodup_names : (target.namespaces.map (·.name)).Nodup
  mem_names : ∀ name, name ∈ target.namespaces.map (·.name) ↔
    ∃ document ∈ documents, document.namespaceFor? target.name = some name
  target_eq : ∀ space ∈ target.namespaces, space.target = target.name
  once : ∀ document ∈ documents, ∀ definition ∈ document.definitions,
    ∃ name, document.namespaceFor? target.name = some name ∧
      target.registrations ⟨document.name, definition.name⟩ =
        [(name, .ofDefinition document.name definition)]
  ordered : ∀ space ∈ target.namespaces, ∀ kind,
    space.referencesOf kind =
      (documents.filter (·.namespaceFor? target.name == some space.name)).flatMap fun document =>
        (document.definitions.filter (·.kind == kind)).map (⟨document.name, ·.name⟩)
  declaredAt : ∀ space ∈ target.namespaces, ∀ identifier location,
    space.declaredAt? identifier = some location ↔
      ∃ document ∈ documents, document.namespaceFor? target.name = some space.name ∧
        ∃ definition ∈ document.definitions, definition.name = identifier ∧
          location = document.place definition.line

theorem mem_contributed {documents : List Document} {target name : String} {member : Member} :
    member ∈ contributed documents target name ↔
      ∃ document ∈ documents, document.namespaceFor? target = some name ∧
        ∃ definition ∈ document.definitions, member = .ofDefinition document.name definition := by
  simp only [contributed, List.mem_flatMap, List.mem_filter, beq_iff_eq, Document.members,
    List.mem_map, and_assoc, eq_comm (a := member)]

theorem map_identifier_contributed (documents : List Document) (target name : String) :
    (contributed documents target name).map Member.identifier =
      (documents.filter (·.namespaceFor? target == some name)).flatMap fun document =>
        document.definitions.map (·.name) := by
  simp only [contributed, Document.members, List.map_flatMap, List.map_map]
  rfl

/-- No namespace of the target gets a name twice exactly if its documents are compatible. -/
theorem apart_contributed_iff {documents : List Document} {target : String}
    (hnames : (documents.map (·.name)).Nodup)
    (hdefinitions : ∀ document ∈ documents, (document.definitions.map (·.name)).Nodup)
    (hcovered : ∀ document ∈ documents, (document.namespaceFor? target).isSome) :
    (∀ name, Apart (contributed documents target name)) ↔ Compatible documents target := by
  simp only [Apart, map_identifier_contributed, List.nodup_flatMap]
  constructor
  · intro h left hleft right hright hne hsame first hfirst second hsecond heq
    obtain ⟨name, hname⟩ := Option.isSome_iff_exists.1 (hcovered left hleft)
    have : Std.Symm (Function.onFun List.Disjoint fun document : Document =>
        document.definitions.map (·.name)) := ⟨fun _ _ => List.Disjoint.symm⟩
    have hdisjoint := (h name).2.forall
      (List.mem_filter.2 ⟨hleft, by simp [hname]⟩)
      (List.mem_filter.2 ⟨hright, by simp [← hsame, hname]⟩)
      (fun heq => hne (congrArg Document.name heq))
    exact hdisjoint (List.mem_map_of_mem hfirst) (heq ▸ List.mem_map_of_mem hsecond)
  · intro h name
    refine ⟨fun document hdocument => hdefinitions document (List.mem_filter.1 hdocument).1, ?_⟩
    have hpairs : documents.Pairwise (·.name ≠ ·.name) := List.pairwise_map.1 hnames
    refine (hpairs.sublist List.filter_sublist).imp_of_mem ?_
    intro left right hleft hright hne identifier hidentifier hother
    obtain ⟨first, hfirst, rfl⟩ := List.mem_map.1 hidentifier
    obtain ⟨second, hsecond, heq⟩ := List.mem_map.1 hother
    obtain ⟨hleft, hleftName⟩ := List.mem_filter.1 hleft
    obtain ⟨hright, hrightName⟩ := List.mem_filter.1 hright
    rw [beq_iff_eq] at hleftName hrightName
    exact h left hleft right hright hne (hleftName.trans hrightName.symm) first hfirst second
      hsecond heq.symm

theorem declaredAt?_eq_some_iff {space : Namespace} (hapart : Apart space.members)
    {identifier : String} {location : Location} :
    space.declaredAt? identifier = some location ↔
      ∃ member ∈ space.members, member.identifier = identifier ∧ member.location = location := by
  simp only [Namespace.declaredAt?, Option.map_eq_some_iff,
    Namespace.member?_eq_some_iff hapart, and_assoc]

theorem filter_eq_singleton {members : List Member} (hapart : Apart members) {member : Member}
    (hmember : member ∈ members) {p : Member → Bool}
    (h : ∀ other ∈ members, p other = true ↔ other = member) : members.filter p = [member] := by
  have hnodup : members.Nodup := List.Nodup.of_map _ hapart
  have hcongr : members.filter p = members.filter (· == member) := by
    apply List.filter_congr
    intro other hother
    rw [Bool.eq_iff_iff, h other hother, beq_iff_eq]
  rw [hcongr, List.filter_beq, List.count_eq_one_of_mem hnodup hmember, List.replicate_one]

/-- A part of a list that alone gives something gives all that the list gives. -/
theorem flatMap_eq_of_unique {α β : Type} {items : List α} {item : α} (hitem : item ∈ items)
    (hnodup : items.Nodup) {f : α → List β} (h : ∀ other ∈ items, other ≠ item → f other = []) :
    items.flatMap f = f item := by
  obtain ⟨before, after, rfl⟩ := List.append_of_mem hitem
  obtain ⟨hbefore, hafter⟩ := List.nodup_middle.1 hnodup |> List.nodup_cons.1
  have hempty : ∀ other ∈ before ++ after, f other = [] := by
    intro other hother
    apply h other
    · rcases List.mem_append.1 hother with hother | hother
      · exact List.mem_append_left _ hother
      · exact List.mem_append_right _ (List.mem_cons_of_mem item hother)
    · rintro rfl
      exact hbefore hother
  have hleft : before.flatMap f = [] :=
    List.flatMap_eq_nil_iff.2 fun other hother => hempty other (List.mem_append_left _ hother)
  have hright : after.flatMap f = [] :=
    List.flatMap_eq_nil_iff.2 fun other hother => hempty other (List.mem_append_right _ hother)
  rw [List.flatMap_append, List.flatMap_cons, hleft, hright, List.nil_append, List.append_nil]

variable {documents : List Document} {name : String} {target : Target}

theorem Merges.mem_members (h : Merges documents name target) {space : Namespace}
    (hspace : space ∈ target.namespaces) {member : Member} :
    member ∈ space.members ↔ member ∈ contributed documents name space.name := by
  rw [h.eq_ofMembers space hspace]
  exact (Namespace.grouped_perm _).mem_iff

theorem Merges.apart_members (h : Merges documents name target) {space : Namespace}
    (hspace : space ∈ target.namespaces) : Apart space.members := by
  rw [h.eq_ofMembers space hspace]
  exact Namespace.apart_grouped.2 (h.apart space.name)

/-- Only the namespace of a document holds members that refer to it. -/
theorem Merges.name_of_reference (h : Merges documents name target)
    (hnames : (documents.map (·.name)).Nodup) {document : Document}
    (hdocument : document ∈ documents) {spaceName : String}
    (hspaceName : document.namespaceFor? name = some spaceName) {space : Namespace}
    (hspace : space ∈ target.namespaces) {member : Member} (hmember : member ∈ space.members)
    (hreference : member.reference.document = document.name) : space.name = spaceName := by
  obtain ⟨source, hsource, hsourceName, found, -, rfl⟩ :=
    mem_contributed.1 ((h.mem_members hspace).1 hmember)
  have heq : source = document := List.inj_on_of_nodup_map hnames hsource hdocument hreference
  rw [heq, hspaceName, Option.some.injEq] at hsourceName
  exact hsourceName.symm

theorem filter_reference {members : List Member} (hapart : Apart members) {member : Member}
    (hmember : member ∈ members) :
    members.filter (·.reference == member.reference) = [member] := by
  apply filter_eq_singleton hapart hmember
  intro other hother
  rw [beq_iff_eq]
  constructor
  · intro hreference
    exact hapart.eq_of_mem hother hmember (congrArg Reference.identifier hreference)
  · rintro rfl
    rfl

theorem Merges.registrations_eq (h : Merges documents name target)
    (hnames : (documents.map (·.name)).Nodup) {document : Document}
    (hdocument : document ∈ documents) {definition : Definition}
    (hdefinition : definition ∈ document.definitions) {spaceName : String}
    (hspaceName : document.namespaceFor? name = some spaceName) :
    target.registrations ⟨document.name, definition.name⟩ =
      [(spaceName, .ofDefinition document.name definition)] := by
  obtain ⟨space, hspace, rfl⟩ :=
    List.mem_map.1 ((h.mem_names spaceName).2 ⟨document, hdocument, hspaceName⟩)
  have hmember : Member.ofDefinition document.name definition ∈ space.members :=
    (h.mem_members hspace).2
      (mem_contributed.2 ⟨document, hdocument, hspaceName, definition, hdefinition, rfl⟩)
  have hfilter : space.members.filter (·.reference == ⟨document.name, definition.name⟩) =
      [.ofDefinition document.name definition] :=
    filter_reference (h.apart_members hspace) hmember
  rw [registrations, flatMap_eq_of_unique hspace (List.Nodup.of_map _ h.nodup_names), hfilter]
  · rfl
  · intro other hother hne
    rw [List.map_eq_nil_iff, List.filter_eq_nil_iff]
    intro member hmember hreference
    apply hne
    apply List.inj_on_of_nodup_map h.nodup_names hother hspace
    exact h.name_of_reference hnames hdocument hspaceName hother hmember
      (congrArg Reference.document (beq_iff_eq.1 hreference))

/-- A target that documents were merged into shows them exactly. -/
theorem Merges.exposes (h : Merges documents name target)
    (hnames : (documents.map (·.name)).Nodup)
    (hcovered : ∀ document ∈ documents, (document.namespaceFor? name).isSome) :
    target.Exposes documents where
  nodup_names := h.nodup_names
  mem_names := by
    rw [h.name_eq]
    exact h.mem_names
  target_eq := by
    intro space hspace
    rw [h.eq_ofMembers space hspace, h.name_eq]
    rfl
  once := by
    intro document hdocument definition hdefinition
    obtain ⟨spaceName, hspaceName⟩ := Option.isSome_iff_exists.1 (hcovered document hdocument)
    rw [h.name_eq]
    exact ⟨spaceName, hspaceName, h.registrations_eq hnames hdocument hdefinition hspaceName⟩
  ordered := by
    intro space hspace kind
    rw [Namespace.referencesOf, h.eq_ofMembers space hspace, h.name_eq]
    simp only [ofMembers, Namespace.filter_grouped, contributed, Document.members,
      List.filter_flatMap, List.filter_map, List.map_flatMap, List.map_map]
    rfl
  declaredAt := by
    intro space hspace identifier location
    rw [declaredAt?_eq_some_iff (h.apart_members hspace), h.name_eq]
    simp only [h.mem_members hspace, mem_contributed]
    constructor
    · rintro ⟨_, ⟨document, hdocument, hspaceName, definition, hdefinition, rfl⟩, rfl, rfl⟩
      exact ⟨document, hdocument, hspaceName, definition, hdefinition, rfl, rfl⟩
    · rintro ⟨document, hdocument, hspaceName, definition, hdefinition, rfl, rfl⟩
      exact ⟨_, ⟨document, hdocument, hspaceName, definition, hdefinition, rfl⟩, rfl, rfl⟩

theorem map_name_of_resolve {targets : List Target} (h : resolve documents = .ok targets) :
    targets.map (·.name) = namesOf documents := by
  have hmap := Steps.map_eq_of_mapM h
    fun name target hname => (merges_of_ofDocuments hname).name_eq
  rwa [List.map_id'] at hmap

theorem merges_of_mem_resolve {targets : List Target} (h : resolve documents = .ok targets)
    {target : Target} (htarget : target ∈ targets) :
    Merges (sortDocuments documents) target.name target := by
  obtain ⟨name, -, hname⟩ := Steps.exists_of_mem_mapM h htarget
  have hmerges := merges_of_ofDocuments hname
  rwa [← hmerges.name_eq] at hmerges

theorem isSome_namespaceFor? {document : Document}
    (h : (document.namespaces.get? defaultTarget).isSome) (name : String) :
    (document.namespaceFor? name).isSome := by
  rw [Document.namespaceFor?, Option.isSome_or, h, Bool.or_true]

theorem compatible_iff_of_perm {left right : List Document} (h : left.Perm right) :
    Compatible left name ↔ Compatible right name := by
  simp only [Compatible, h.mem_iff]

theorem isSome_namespaceFor?_sortDocuments
    (hdefault : ∀ document ∈ documents, (document.namespaces.get? defaultTarget).isSome)
    (name : String) :
    ∀ document ∈ sortDocuments documents, (document.namespaceFor? name).isSome := by
  intro document hdocument
  have hmem := (sortDocuments_perm documents).mem_iff.1 hdocument
  exact isSome_namespaceFor? (hdefault document hmem) name

theorem nodup_names_sortDocuments (hnames : (documents.map (·.name)).Nodup) :
    ((sortDocuments documents).map (·.name)).Nodup :=
  ((sortDocuments_perm documents).map _).nodup_iff.2 hnames

theorem exists_resolve_iff (hnames : (documents.map (·.name)).Nodup)
    (hdefault : ∀ document ∈ documents, (document.namespaces.get? defaultTarget).isSome)
    (hdefinitions : ∀ document ∈ documents, (document.definitions.map (·.name)).Nodup) :
    (∃ targets, resolve documents = .ok targets) ↔
      ∀ name, Used documents name → Compatible documents name := by
  have hperm := sortDocuments_perm documents
  have hcovered := isSome_namespaceFor?_sortDocuments hdefault
  have hsortedDefinitions : ∀ document ∈ sortDocuments documents,
      (document.definitions.map (·.name)).Nodup := by
    intro document hdocument
    exact hdefinitions document (hperm.mem_iff.1 hdocument)
  rw [resolve, Steps.exists_mapM_eq_ok_iff]
  simp only [mem_namesOf, exists_ofDocuments_iff (hcovered _),
    apart_contributed_iff (nodup_names_sortDocuments hnames) hsortedDefinitions (hcovered _),
    compatible_iff_of_perm hperm, Used]

/-- Resolution succeeds exactly if in every target that comes up the documents are compatible. Its
targets are those that come up, in the order of their names, and each shows the documents
exactly, in the order of their names. -/
theorem resolve_exact (hnames : (documents.map (·.name)).Nodup)
    (hdefault : ∀ document ∈ documents, (document.namespaces.get? defaultTarget).isSome)
    (hdefinitions : ∀ document ∈ documents, (document.definitions.map (·.name)).Nodup) :
    ((∃ targets, resolve documents = .ok targets) ↔
      ∀ name, Used documents name → Compatible documents name) ∧
    ∀ targets, resolve documents = .ok targets →
      (targets.map (·.name)).Pairwise (· < ·) ∧
      (∀ name, name ∈ targets.map (·.name) ↔ Used documents name) ∧
      ∃ ordered : List Document, ordered.Perm documents ∧
        ordered.Pairwise (·.name < ·.name) ∧ ∀ target ∈ targets, target.Exposes ordered := by
  constructor
  · exact exists_resolve_iff hnames hdefault hdefinitions
  · intro targets htargets
    rw [map_name_of_resolve htargets]
    refine ⟨sortedNames_strict _, fun name => mem_namesOf, sortDocuments documents,
      sortDocuments_perm documents, sortDocuments_strict hnames, ?_⟩
    intro target htarget
    apply (merges_of_mem_resolve htargets htarget).exposes
    · exact nodup_names_sortDocuments hnames
    · exact isSome_namespaceFor?_sortDocuments hdefault target.name

/-- Two documents that stand apart in the default target and share a namespace of another. -/
def sharing : List Document := [
  { name := "b.thrift", lines := [], namespaces := [("default", "b"), ("go", "shared")],
    definitions := [⟨⟨"User", 1⟩, .struct []⟩, ⟨⟨"Level", 3⟩, .senum ["low", "high"]⟩] },
  { name := "a.thrift", lines := [], namespaces := [("default", "a"), ("go", "shared")],
    definitions := [⟨⟨"Group", 1⟩, .struct []⟩, ⟨⟨"Limit", 2⟩, .const "i32" "7"⟩] }]

theorem resolve_exact_sharing :
    ∃ targets, resolve sharing = .ok targets ∧ "go" ∈ targets.map (·.name) ∧
      ∃ ordered : List Document, ordered.Perm sharing ∧
        ordered.Pairwise (·.name < ·.name) ∧ ∀ target ∈ targets, target.Exposes ordered := by
  have hexact := @resolve_exact sharing (by decide) (by decide) (by decide)
  have hcompatible : ∀ name, Used sharing name → Compatible sharing name := by
    intro name hused
    have hname : name = "default" ∨ name = "go" := by
      rcases hused with rfl | ⟨document, hdocument, hkey⟩
      · exact Or.inl rfl
      · simp only [sharing, List.mem_cons, List.not_mem_nil, or_false] at hdocument
        rcases hdocument with rfl | rfl
        · simpa [Table.keys] using hkey
        · simpa [Table.keys] using hkey
    rcases hname with rfl | rfl
    · decide
    · decide
  obtain ⟨targets, htargets⟩ := hexact.1.2 hcompatible
  obtain ⟨-, hnames, hexposes⟩ := hexact.2 targets htargets
  exact ⟨targets, htargets, (hnames "go").2 (by decide), hexposes⟩

end ThriftIdl.Target

import ThriftIdl.Proofs.Namespace
import ThriftIdl.Proofs.Steps
import ThriftIdl.Target

/-!
Merging documents into a target. While documents are merged, every namespace holds what the
documents so far contribute to it, grouped by kind.
-/

namespace ThriftIdl

/-- The members that the document's definitions make up. -/
def Document.members (document : Document) : List Member :=
  document.definitions.map (.ofDefinition document.name)

namespace Target

open Namespace (Apart ofMembers)

/-- What documents contribute to a namespace of a target, document by document. -/
def contributed (documents : List Document) (target name : String) : List Member :=
  (documents.filter (·.namespaceFor? target == some name)).flatMap Document.members

theorem foldlM_register_eq_ok_iff {target name document : String} {definitions : List Definition}
    {members : List Member} (hmembers : Apart members) {result : Namespace} :
    definitions.foldlM (fun space definition => space.register document definition)
        (ofMembers target name members) = .ok result ↔
      Apart (members ++ definitions.map (.ofDefinition document)) ∧
        result = ofMembers target name (members ++ definitions.map (.ofDefinition document)) := by
  apply Steps.foldlM_eq_ok_iff_nodup (ofMembers target name) (.ofDefinition document)
    Member.identifier _ hmembers
  intro definition _ done next
  exact Namespace.register_ofMembers_eq_ok_iff

theorem namespace?_eq_none_iff {target : Target} {name : String} :
    target.namespace? name = none ↔ name ∉ target.namespaces.map (·.name) :=
  Lookup.find?_eq_none_iff

theorem put_of_notMem {target : Target} {space : Namespace}
    (h : space.name ∉ target.namespaces.map (·.name)) :
    target.put space = { target with namespaces := target.namespaces ++ [space] } := by
  rw [put, namespace?_eq_none_iff.2 h]
  rfl

theorem namespaceOrEmpty_of_notMem {target : Target} {name : String}
    (h : name ∉ target.namespaces.map (·.name)) :
    target.namespaceOrEmpty name = .empty target.name name := by
  rw [namespaceOrEmpty, namespace?_eq_none_iff.2 h]
  rfl

theorem names_put (target : Target) (space : Namespace) :
    (target.put space).namespaces.map (·.name) =
      if space.name ∈ target.namespaces.map (·.name) then target.namespaces.map (·.name)
      else target.namespaces.map (·.name) ++ [space.name] := by
  by_cases h : space.name ∈ target.namespaces.map (·.name)
  · have hsome : (target.namespace? space.name).isSome = true := by
      rw [Option.isSome_iff_ne_none, ne_eq, namespace?_eq_none_iff, not_not]
      exact h
    rw [if_pos h, put, if_pos hsome, List.map_map]
    apply List.map_congr_left
    intro other _
    by_cases hname : other.name = space.name
    · simp [hname]
    · simp [hname]
  · rw [if_neg h, put_of_notMem h, List.map_append, List.map_singleton]

theorem mem_names_put {target : Target} {space : Namespace} {name : String} :
    name ∈ (target.put space).namespaces.map (·.name) ↔
      name ∈ target.namespaces.map (·.name) ∨ name = space.name := by
  rw [names_put]
  split
  · next hold =>
    constructor
    · exact Or.inl
    · intro hname
      rcases hname with hname | rfl
      · exact hname
      · exact hold
  · rw [List.mem_append, List.mem_singleton]

theorem name_put (target : Target) (space : Namespace) :
    (target.put space).name = target.name := by
  rw [put]
  split
  · rfl
  · rfl

theorem nodup_names_put (target : Target) (h : (target.namespaces.map (·.name)).Nodup)
    (space : Namespace) : ((target.put space).namespaces.map (·.name)).Nodup := by
  rw [names_put]
  split
  · exact h
  · next hnew => exact Lookup.nodup_append_singleton.2 ⟨h, hnew⟩

theorem mem_put {target : Target} {space other : Namespace}
    (h : other ∈ (target.put space).namespaces) :
    other = space ∨ (other ∈ target.namespaces ∧ other.name ≠ space.name) := by
  rw [put] at h
  split at h
  · obtain ⟨former, hformer, heq⟩ := List.mem_map.1 h
    by_cases hname : former.name = space.name
    · rw [if_pos hname] at heq
      exact Or.inl heq.symm
    · rw [if_neg hname] at heq
      subst heq
      exact Or.inr ⟨hformer, hname⟩
  · next hnone =>
    rcases List.mem_append.1 h with h | h
    · have hnew : space.name ∉ target.namespaces.map (·.name) := by
        rw [← namespace?_eq_none_iff]
        simpa using hnone
      refine Or.inr ⟨h, ?_⟩
      intro hname
      exact hnew (List.mem_map.2 ⟨other, h, hname⟩)
    · exact Or.inl (List.mem_singleton.1 h)

/-- The target is what the documents, one after the other, make of the target with the name. -/
structure Merges (documents : List Document) (name : String) (target : Target) : Prop where
  name_eq : target.name = name
  nodup_names : (target.namespaces.map (·.name)).Nodup
  mem_names : ∀ space, space ∈ target.namespaces.map (·.name) ↔
    ∃ document ∈ documents, document.namespaceFor? name = some space
  eq_ofMembers : ∀ space ∈ target.namespaces,
    space = ofMembers name space.name (contributed documents name space.name)
  apart : ∀ space, Apart (contributed documents name space)

theorem merges_nil (name : String) : Merges [] name ⟨name, []⟩ where
  name_eq := rfl
  nodup_names := List.nodup_nil
  mem_names := by simp
  eq_ofMembers := by simp
  apart := by simp [contributed, Apart]

theorem contributed_append (documents : List Document) {document : Document}
    {target name : String} (h : document.namespaceFor? target = some name) :
    contributed (documents ++ [document]) target name =
      contributed documents target name ++ document.members := by
  simp [contributed, h]

theorem contributed_append_of_ne (documents : List Document) {document : Document}
    {target name other : String} (h : document.namespaceFor? target = some name)
    (hne : other ≠ name) :
    contributed (documents ++ [document]) target other = contributed documents target other := by
  simp [contributed, h, Ne.symm hne]

theorem Merges.namespaceOrEmpty {documents : List Document} {name : String} {target : Target}
    (h : Merges documents name target) (space : String) :
    target.namespaceOrEmpty space = ofMembers name space (contributed documents name space) := by
  rw [Target.namespaceOrEmpty]
  cases hfound : target.namespace? space with
  | some found =>
    obtain ⟨hmem, rfl⟩ := Lookup.mem_of_find? hfound
    exact h.eq_ofMembers found hmem
  | none =>
    have hnone : contributed documents name space = [] := by
      have hno : ∀ document ∈ documents, document.namespaceFor? name ≠ some space := by
        intro document hdocument heq
        exact namespace?_eq_none_iff.1 hfound ((h.mem_names space).2 ⟨document, hdocument, heq⟩)
      rw [contributed, List.filter_eq_nil_iff.2 (by simpa using hno), List.flatMap_nil]
    rw [hnone, h.name_eq]
    rfl

/-- A document adds what it contributes to its namespace, and nothing to the others. -/
theorem Merges.put {documents : List Document} {name space : String} {target : Target}
    (h : Merges documents name target) {document : Document}
    (hspace : document.namespaceFor? name = some space)
    (hapart : Apart (contributed (documents ++ [document]) name space)) :
    Merges (documents ++ [document]) name
      (target.put (ofMembers name space (contributed (documents ++ [document]) name space))) where
  name_eq := (target.name_put _).trans h.name_eq
  nodup_names := target.nodup_names_put h.nodup_names _
  mem_names := by
    intro other
    rw [mem_names_put, h.mem_names]
    constructor
    · intro hother
      rcases hother with ⟨former, hformer, heq⟩ | rfl
      · exact ⟨former, List.mem_append_left _ hformer, heq⟩
      · exact ⟨document, by simp, hspace⟩
    · intro hother
      obtain ⟨former, hformer, heq⟩ := hother
      rcases List.mem_append.1 hformer with hformer | hformer
      · exact Or.inl ⟨former, hformer, heq⟩
      · rw [List.mem_singleton.1 hformer, hspace, Option.some.injEq] at heq
        exact Or.inr heq.symm
  eq_ofMembers := by
    intro other hother
    rcases mem_put hother with rfl | ⟨hold, hne⟩
    · rfl
    · rw [contributed_append_of_ne documents hspace hne]
      exact h.eq_ofMembers other hold
  apart := by
    intro other
    by_cases heq : other = space
    · subst heq
      exact hapart
    · rw [contributed_append_of_ne documents hspace heq]
      exact h.apart other

theorem Merges.registerAll_eq_ok_iff {documents : List Document} {name space : String}
    {target : Target} (h : Merges documents name target) {document : Document}
    (hspace : document.namespaceFor? name = some space) {result : Namespace} :
    registerAll (target.namespaceOrEmpty space) document = .ok result ↔
      Apart (contributed (documents ++ [document]) name space) ∧
        result = ofMembers name space (contributed (documents ++ [document]) name space) := by
  rw [h.namespaceOrEmpty, contributed_append documents hspace]
  exact foldlM_register_eq_ok_iff (h.apart space)

/-- A document can be merged exactly if it has a namespace for the target in which its names are
new. -/
theorem Merges.merge_eq_ok_iff {documents : List Document} {name : String}
    {target result : Target} (h : Merges documents name target) {document : Document} :
    target.merge document = .ok result ↔
      ∃ space, document.namespaceFor? name = some space ∧
        Apart (contributed (documents ++ [document]) name space) ∧
        result = target.put
          (ofMembers name space (contributed (documents ++ [document]) name space)) := by
  rw [merge, h.name_eq]
  cases hspace : document.namespaceFor? name with
  | none => simp
  | some space =>
    cases hregister : registerAll (target.namespaceOrEmpty space) document with
    | error fault =>
      constructor
      · intro hok
        simp only [hregister] at hok
        cases hok
      · rintro ⟨other, hother, hapart, -⟩
        cases hother
        rw [(h.registerAll_eq_ok_iff hspace).2 ⟨hapart, rfl⟩] at hregister
        cases hregister
    | ok registered =>
      obtain ⟨hapart, rfl⟩ := (h.registerAll_eq_ok_iff hspace).1 hregister
      simp only [hregister]
      constructor
      · intro hok
        cases hok
        exact ⟨space, rfl, hapart, rfl⟩
      · rintro ⟨other, hother, -, rfl⟩
        cases hother
        rfl

theorem Merges.foldlM {documents rest : List Document} {name : String} {target result : Target}
    (h : Merges documents name target) (hok : rest.foldlM merge target = .ok result) :
    Merges (documents ++ rest) name result := by
  induction rest generalizing documents target with
  | nil =>
    rw [List.foldlM_nil, Steps.pure_eq_ok] at hok
    subst hok
    rwa [List.append_nil]
  | cons document rest ih =>
    rw [List.foldlM_cons, Steps.bind_eq_ok] at hok
    obtain ⟨next, hnext, hok⟩ := hok
    obtain ⟨space, hspace, hapart, rfl⟩ := h.merge_eq_ok_iff.1 hnext
    rw [List.append_cons]
    exact ih (h.put hspace hapart) hok

theorem contributed_sublist (documents rest : List Document) (target name : String) :
    (contributed documents target name).Sublist (contributed (documents ++ rest) target name) := by
  rw [contributed, contributed, List.filter_append, List.flatMap_append]
  exact List.sublist_append_left _ _

/-- Documents can be merged if all of them have a namespace and no name stands twice in one. -/
theorem Merges.exists_foldlM {documents rest : List Document} {name : String} {target : Target}
    (h : Merges documents name target)
    (hcovered : ∀ document ∈ rest, (document.namespaceFor? name).isSome)
    (hapart : ∀ space, Apart (contributed (documents ++ rest) name space)) :
    ∃ result, rest.foldlM merge target = .ok result := by
  induction rest generalizing documents target with
  | nil => exact ⟨target, rfl⟩
  | cons document rest ih =>
    rw [List.append_cons] at hapart
    obtain ⟨space, hspace⟩ := Option.isSome_iff_exists.1 (hcovered document List.mem_cons_self)
    have hfirst : Apart (contributed (documents ++ [document]) name space) :=
      ((contributed_sublist _ rest name space).map _).nodup (hapart space)
    obtain ⟨result, hresult⟩ := ih (h.put hspace hfirst)
      (fun other hother => hcovered other (List.mem_cons_of_mem document hother)) hapart
    exact ⟨result, by
      rw [List.foldlM_cons, Steps.bind_eq_ok]
      exact ⟨_, h.merge_eq_ok_iff.2 ⟨space, hspace, hfirst, rfl⟩, hresult⟩⟩

theorem merges_of_ofDocuments {documents : List Document} {name : String} {target : Target}
    (h : ofDocuments documents name = .ok target) : Merges documents name target :=
  (merges_nil name).foldlM h

/-- Documents that all have a namespace for a target make it up exactly if no namespace of it
gets a name twice. -/
theorem exists_ofDocuments_iff {documents : List Document} {name : String}
    (hcovered : ∀ document ∈ documents, (document.namespaceFor? name).isSome) :
    (∃ target, ofDocuments documents name = .ok target) ↔
      ∀ space, Apart (contributed documents name space) := by
  constructor
  · rintro ⟨target, htarget⟩
    exact (merges_of_ofDocuments htarget).apart
  · exact (merges_nil name).exists_foldlM hcovered

end Target

end ThriftIdl

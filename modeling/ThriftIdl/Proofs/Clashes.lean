import ThriftIdl.Proofs.Document.WellFormed
import ThriftIdl.Proofs.Internal

/-!
What resolution cites when it fails. Targets, documents and definitions are taken in order, and the
first definition whose name an earlier document has put into its namespace is reported, together
with the one declaration that it repeats.
-/

namespace ThriftIdl

/-- The document is one that was read, and had a namespace for the default target before. -/
def Document.IsRead (document : Document) : Prop :=
  ∃ original : Document, (original.namespaces.get? defaultTarget).isSome ∧
    original.read = .ok document

theorem Document.IsRead.isSome_default {document : Document} (h : document.IsRead) :
    (document.namespaces.get? defaultTarget).isSome := by
  obtain ⟨original, hdefault, hread⟩ := h
  exact Model.rooted_of_read hread hdefault

theorem Document.IsRead.nodup_names {document : Document} (h : document.IsRead) :
    (document.definitions.map (·.name)).Nodup := by
  obtain ⟨original, -, hread⟩ := h
  exact nodup_names_of_read hread

namespace Target

open Namespace (Apart ofMembers)

/-- A definition of a document, as resolution comes to it for a target. -/
structure Visit where
  target : String
  document : Document
  definition : Definition
deriving DecidableEq

namespace Visit

/-- The visits of a document for a target, in the order of its definitions. -/
def ofDocument (target : String) (document : Document) : List Visit :=
  document.definitions.map (⟨target, document, ·⟩)

/-- The name is declared in a document before that of the visit, which has the same namespace for
the target. -/
structure Repeats (documents : List Document) (visit : Visit) (earlier : Document)
    (other : Definition) : Prop where
  mem : earlier ∈ documents
  lt : earlier.name < visit.document.name
  shares : earlier.namespaceFor? visit.target = visit.document.namespaceFor? visit.target
  declares : other ∈ earlier.definitions
  name_eq : other.name = visit.definition.name

/-- Some document before that of the visit declares the name in the same namespace. -/
def Clashes (documents : List Document) (visit : Visit) : Prop :=
  ∃ earlier other, visit.Repeats documents earlier other

instance (documents : List Document) (visit : Visit) : Decidable (visit.Clashes documents) :=
  decidable_of_iff (∃ earlier ∈ documents, earlier.name < visit.document.name ∧
      earlier.namespaceFor? visit.target = visit.document.namespaceFor? visit.target ∧
      ∃ other ∈ earlier.definitions, other.name = visit.definition.name) <| by
    constructor
    · rintro ⟨earlier, hmem, hlt, hshares, other, hdeclares, hname⟩
      exact ⟨earlier, other, hmem, hlt, hshares, hdeclares, hname⟩
    · rintro ⟨earlier, other, h⟩
      exact ⟨earlier, h.mem, h.lt, h.shares, other, h.declares, h.name_eq⟩

/-- The fault of a definition whose name is declared in the namespace before, without the lines of
its document. -/
def fault (visit : Visit) (space : String) (earlier : Location) : Fault where
  category := .duplicateIdentifier .sharedNamespace earlier
  message := do
    return s!"identifier `{visit.definition.name}` is already declared in namespace `{space}` " ++
      s!"of target `{visit.target}` " ++ (← Rule.previously earlier)
  location? := some (visit.document.place visit.definition.line)

/-- The fault cites one of the members, which has the name of the visit. -/
def Cites (members : List Member) (space : String) (visit : Visit) (fault : Fault) : Prop :=
  ∃ member ∈ members, member.identifier = visit.definition.name ∧
    fault = visit.fault space member.location

/-- The fault cites the one declaration that the visit repeats, on a line of the visit's
document. -/
def Refused (documents : List Document) (visit : Visit) (fault : Fault) : Prop :=
  ∃ space earlier other, visit.document.namespaceFor? visit.target = some space ∧
    (∀ document definition, visit.Repeats documents document definition ↔
      document = earlier ∧ definition = other) ∧
    fault = { visit.fault space (earlier.place other.line) with
      source? := some visit.document.lines }

end Visit

/-- All visits: the targets, the documents for each, and the definitions of each document. -/
def visits (targets : List String) (documents : List Document) : List Visit :=
  targets.flatMap fun target => documents.flatMap (Visit.ofDocument target)

/-- The first of the visits that clashes. -/
def firstClash? (documents : List Document) (visits : List Visit) : Option Visit :=
  visits.find? (·.Clashes documents)

theorem firstClash?_append (documents : List Document) (first second : List Visit) :
    firstClash? documents (first ++ second) =
      (firstClash? documents first).or (firstClash? documents second) :=
  List.find?_append

theorem firstClash?_cons (documents : List Document) (visit : Visit) (visits : List Visit) :
    firstClash? documents (visit :: visits) =
      (firstClash? documents [visit]).or (firstClash? documents visits) :=
  firstClash?_append documents [visit] visits

theorem firstClash?_flatMap {α : Type} (documents : List Document) (f : α → List Visit)
    (items : List α) : firstClash? documents (items.flatMap f) =
      items.findSome? fun item => firstClash? documents (f item) :=
  List.find?_flatMap

theorem firstClash?_of_clashes {documents : List Document} {visit : Visit}
    (h : visit.Clashes documents) : firstClash? documents [visit] = some visit := by
  simp [firstClash?, h]

theorem firstClash?_of_not_clashes {documents : List Document} {visit : Visit}
    (h : ¬visit.Clashes documents) : firstClash? documents [visit] = none := by
  simp [firstClash?, h]

section Register

variable {name space : String} {document : Document} {definition : Definition}
  {members : List Member}

/-- A namespace refuses a definition with a fault that cites the member with its name. -/
theorem register_eq_error_iff (hmembers : Apart members) {fault : Fault} :
    (ofMembers name space members).register document.name definition = .error fault ↔
      (Visit.mk name document definition).Cites members space fault := by
  have hdeclared : ∀ location,
      (ofMembers name space members).declaredAt? definition.name = some location ↔
        ∃ member ∈ members, member.identifier = definition.name ∧ member.location = location := by
    intro location
    rw [declaredAt?_eq_some_iff (Namespace.apart_grouped.2 hmembers)]
    simp only [ofMembers, (Namespace.grouped_perm members).mem_iff]
  rw [Namespace.register]
  split
  · next earlier hearlier =>
    obtain ⟨member, hmember, hname, rfl⟩ := (hdeclared earlier).1 hearlier
    rw [Except.error.injEq]
    constructor
    · rintro rfl
      exact ⟨member, hmember, hname, rfl⟩
    · rintro ⟨other, hother, hotherName, rfl⟩
      rw [hmembers.eq_of_mem hother hmember (hotherName.trans hname.symm)]
      rfl
  · next hnone =>
    rw [iff_false_left (by simp)]
    rintro ⟨member, hmember, hname, -⟩
    rw [(hdeclared member.location).2 ⟨member, hmember, hname, rfl⟩] at hnone
    cases hnone

end Register

section Merge

variable {done rest : List Document} {document : Document} {name space : String}

/-- The documents before one in a sorted list are those with lower names. -/
theorem mem_and_lt_iff (hordered : (done ++ document :: rest).Pairwise (·.name < ·.name))
    {other : Document} :
    other ∈ done ++ document :: rest ∧ other.name < document.name ↔ other ∈ done := by
  obtain ⟨-, hrest, hdone⟩ := List.pairwise_append.1 hordered
  have hlater := (List.pairwise_cons.1 hrest).1
  constructor
  · rintro ⟨hmem, hlt⟩
    rcases List.mem_append.1 hmem with hmem | hmem
    · exact hmem
    · rcases List.mem_cons.1 hmem with rfl | hmem
      · exact absurd hlt (String.lt_irrefl other.name)
      · exact absurd (String.lt_trans hlt (hlater other hmem)) (String.lt_irrefl other.name)
  · intro hmem
    exact ⟨List.mem_append_left _ hmem, hdone other hmem document List.mem_cons_self⟩

variable (hordered : (done ++ document :: rest).Pairwise (·.name < ·.name))
  (hspace : document.namespaceFor? name = some space)

include hordered hspace

theorem repeats_iff {definition other : Definition} {earlier : Document} :
    (Visit.mk name document definition).Repeats (done ++ document :: rest) earlier other ↔
      earlier ∈ done ∧ earlier.namespaceFor? name = some space ∧
        other ∈ earlier.definitions ∧ other.name = definition.name := by
  rw [← mem_and_lt_iff hordered, ← hspace]
  constructor
  · intro h
    exact ⟨⟨h.mem, h.lt⟩, h.shares, h.declares, h.name_eq⟩
  · rintro ⟨⟨hmem, hlt⟩, hshares, hdeclares, hname⟩
    exact ⟨hmem, hlt, hshares, hdeclares, hname⟩

/-- A visit clashes exactly if the documents before contribute its name to the namespace. -/
theorem clashes_iff {definition : Definition} :
    (Visit.mk name document definition).Clashes (done ++ document :: rest) ↔
      ∃ member ∈ contributed done name space, member.identifier = definition.name := by
  simp only [Visit.Clashes, repeats_iff hordered hspace, mem_contributed]
  constructor
  · rintro ⟨earlier, other, hearlier, hshares, hother, hname⟩
    exact ⟨_, ⟨earlier, hearlier, hshares, other, hother, rfl⟩, hname⟩
  · rintro ⟨_, ⟨earlier, hearlier, hshares, other, hother, rfl⟩, hname⟩
    exact ⟨earlier, other, hearlier, hshares, hother, hname⟩

/-- A fault that cites what the documents before contribute cites the one declaration that the
visit repeats. -/
theorem refused_iff (hapart : Apart (contributed done name space))
    (hdefinitions : ∀ earlier ∈ done, (earlier.definitions.map (·.name)).Nodup)
    {definition : Definition} {fault : Fault} :
    (Visit.mk name document definition).Refused (done ++ document :: rest) fault ↔
      ∃ bare, (Visit.mk name document definition).Cites (contributed done name space) space bare ∧
        fault = { bare with source? := some document.lines } := by
  constructor
  · rintro ⟨other, earlier, declared, hother, hunique, rfl⟩
    obtain rfl : space = other := Option.some.inj (hspace.symm.trans hother)
    obtain ⟨hearlier, hshares, hdeclared, hname⟩ :=
      (repeats_iff hordered hspace).1 ((hunique earlier declared).2 ⟨rfl, rfl⟩)
    have hmember := mem_contributed.2 ⟨earlier, hearlier, hshares, declared, hdeclared, rfl⟩
    exact ⟨_, ⟨_, hmember, hname, rfl⟩, rfl⟩
  · rintro ⟨_, ⟨member, hmember, hname, rfl⟩, rfl⟩
    obtain ⟨earlier, hearlier, hshares, declared, hdeclared, rfl⟩ := mem_contributed.1 hmember
    refine ⟨space, earlier, declared, hspace, fun other definition => ?_, rfl⟩
    rw [repeats_iff hordered hspace]
    constructor
    · rintro ⟨hother, hotherShares, hdefinition, hotherName⟩
      have hmemberEq := hapart.eq_of_mem
        (mem_contributed.2 ⟨other, hother, hotherShares, definition, hdefinition, rfl⟩) hmember
        (hotherName.trans hname.symm)
      have hdocument : other.name = earlier.name :=
        congrArg (fun member => member.reference.document) hmemberEq
      have hnames := nodup_names_of_strict (List.pairwise_append.1 hordered).1
      obtain rfl : other = earlier := List.inj_on_of_nodup_map hnames hother hearlier hdocument
      exact ⟨rfl, List.inj_on_of_nodup_map (hdefinitions other hother) hdefinition hdeclared
        (hotherName.trans hname.symm)⟩
    · rintro ⟨rfl, rfl⟩
      exact ⟨hearlier, hshares, hdeclared, hname⟩

/-- Registering a definition reports its visit if the documents before contribute its name. The
definitions before it in its document have other names. -/
theorem reports_register {before : List Definition} {definition : Definition}
    (hmembers : Apart (contributed done name space ++ before.map (.ofDefinition document.name)))
    (hnew : definition.name ∉ before.map (·.name)) :
    Steps.Reports (Visit.Cites (contributed done name space) space)
      ((ofMembers name space
        (contributed done name space ++ before.map (.ofDefinition document.name))).register
          document.name definition)
      (firstClash? (done ++ document :: rest) [⟨name, document, definition⟩]) := by
  have hcites : ∀ fault,
      (Visit.mk name document definition).Cites (contributed done name space ++
        before.map (.ofDefinition document.name)) space fault ↔
      (Visit.mk name document definition).Cites (contributed done name space) space fault := by
    intro fault
    constructor
    · rintro ⟨member, hmember, hname, rfl⟩
      rcases List.mem_append.1 hmember with hmember | hmember
      · exact ⟨member, hmember, hname, rfl⟩
      · obtain ⟨other, hother, rfl⟩ := List.mem_map.1 hmember
        exact absurd (List.mem_map.2 ⟨other, hother, hname⟩) hnew
    · rintro ⟨member, hmember, hname, rfl⟩
      exact ⟨member, List.mem_append_left _ hmember, hname, rfl⟩
  by_cases hclash : (Visit.mk name document definition).Clashes (done ++ document :: rest)
  · rw [firstClash?_of_clashes hclash]
    constructor
    · intro fault
      rw [register_eq_error_iff hmembers, hcites]
      simp
    · rintro _ ⟨⟩
      obtain ⟨member, hmember, hname⟩ := (clashes_iff hordered hspace).1 hclash
      exact ⟨_, member, hmember, hname, rfl⟩
  · rw [firstClash?_of_not_clashes hclash]
    constructor
    · intro fault
      rw [register_eq_error_iff hmembers, hcites]
      have hnone : ¬(Visit.mk name document definition).Cites
          (contributed done name space) space fault := by
        rintro ⟨member, hmember, hname, -⟩
        exact hclash ((clashes_iff hordered hspace).2 ⟨member, hmember, hname⟩)
      simp [hnone]
    · rintro _ ⟨⟩

/-- Registering definitions after others of the document reports the first that clashes. -/
theorem reports_foldlM_register {before definitions : List Definition}
    (hmembers : Apart (contributed done name space ++ before.map (.ofDefinition document.name)))
    (hnames : ((before ++ definitions).map (·.name)).Nodup) :
    Steps.Reports (Visit.Cites (contributed done name space) space)
      (definitions.foldlM (fun space definition => space.register document.name definition)
        (ofMembers name space
          (contributed done name space ++ before.map (.ofDefinition document.name))))
      (firstClash? (done ++ document :: rest) (definitions.map (⟨name, document, ·⟩))) := by
  induction definitions generalizing before with
  | nil => exact Steps.reports_ok _
  | cons definition definitions ih =>
    rw [List.append_cons] at hnames
    have hfirst : ((before ++ [definition]).map (·.name)).Nodup :=
      ((List.sublist_append_left _ _).map _).nodup hnames
    have hnew := (Lookup.nodup_map_append_singleton.1 hfirst).2
    rw [List.foldlM_cons, List.map_cons, firstClash?_cons]
    apply (reports_register hordered hspace hmembers hnew).bind
    intro next hnext
    obtain ⟨hfree, rfl⟩ := Namespace.register_ofMembers_eq_ok_iff.1 hnext
    have hmore : contributed done name space ++ before.map (.ofDefinition document.name) ++
        [.ofDefinition document.name definition] = contributed done name space ++
          (before ++ [definition]).map (.ofDefinition document.name) := by
      rw [List.map_append, List.append_assoc]
      rfl
    have happart : Apart (contributed done name space ++
        (before ++ [definition]).map (.ofDefinition document.name)) := by
      rw [← hmore]
      exact Lookup.nodup_map_append_singleton.2 ⟨hmembers, hfree⟩
    rw [hmore]
    exact ih happart hnames

/-- Merging a document reports its first definition that clashes. -/
theorem Merges.reports_merge {target : Target} (hmerges : Merges done name target)
    (hdefinitions : ∀ other ∈ done ++ document :: rest,
      (other.definitions.map (·.name)).Nodup) :
    Steps.Reports (Visit.Refused (done ++ document :: rest)) (target.merge document)
      (firstClash? (done ++ document :: rest) (Visit.ofDocument name document)) := by
  have hregister : Steps.Reports (Visit.Cites (contributed done name space) space)
      (registerAll (target.namespaceOrEmpty space) document)
      (firstClash? (done ++ document :: rest) (Visit.ofDocument name document)) := by
    have hmembers : Apart (contributed done name space ++
        ([] : List Definition).map (.ofDefinition document.name)) := by
      rw [List.map_nil, List.append_nil]
      exact hmerges.apart space
    have hreports := reports_foldlM_register hordered hspace hmembers
      (hdefinitions document (by simp))
    rw [List.map_nil, List.append_nil] at hreports
    rw [hmerges.namespaceOrEmpty]
    exact hreports
  apply hregister.mapError (fun fault => { fault with source? := some document.lines })
  · intro result hresult
    refine ⟨target.put result, ?_⟩
    simp only [merge, hmerges.name_eq, hspace, hresult]
  · intro fault hfault
    obtain ⟨visit, -, member, -, -, rfl⟩ := (hregister.error_iff fault).1 hfault
    simp only [merge, hmerges.name_eq, hspace, hfault]
    rfl
  · intro visit hvisit fault
    obtain ⟨definition, -, rfl⟩ := List.mem_map.1 (List.mem_of_find?_eq_some hvisit)
    apply refused_iff hordered hspace (hmerges.apart space)
    intro earlier hearlier
    exact hdefinitions earlier (List.mem_append_left _ hearlier)

end Merge

section Resolve

variable {documents : List Document} {name : String}

/-- Merging documents after others reports the first of their definitions that clashes. -/
theorem Merges.reports_foldlM {done rest : List Document} {target : Target}
    (hmerges : Merges done name target)
    (hordered : (done ++ rest).Pairwise (·.name < ·.name))
    (hcovered : ∀ document ∈ rest, (document.namespaceFor? name).isSome)
    (hdefinitions : ∀ document ∈ done ++ rest, (document.definitions.map (·.name)).Nodup) :
    Steps.Reports (Visit.Refused (done ++ rest)) (rest.foldlM merge target)
      (firstClash? (done ++ rest) (rest.flatMap (Visit.ofDocument name))) := by
  induction rest generalizing done target with
  | nil => exact Steps.reports_ok target
  | cons document rest ih =>
    obtain ⟨space, hspace⟩ := Option.isSome_iff_exists.1 (hcovered document List.mem_cons_self)
    rw [List.foldlM_cons, List.flatMap_cons, firstClash?_append]
    apply (hmerges.reports_merge hordered hspace hdefinitions).bind
    intro next hnext
    obtain ⟨_, hother, happart, rfl⟩ := hmerges.merge_eq_ok_iff.1 hnext
    rw [List.append_cons] at hordered hdefinitions ⊢
    apply ih (hmerges.put hother happart) hordered _ hdefinitions
    exact fun other hmem => hcovered other (List.mem_cons_of_mem document hmem)

/-- Resolution reports the first visit that clashes. -/
theorem reports_resolve (hnames : (documents.map (·.name)).Nodup)
    (hread : ∀ document ∈ documents, document.IsRead) :
    Steps.Reports (Visit.Refused (sortDocuments documents)) (resolve documents)
      (firstClash? (sortDocuments documents)
        (visits (namesOf documents) (sortDocuments documents))) := by
  have hsorted : ∀ document ∈ sortDocuments documents, document.IsRead := by
    intro document hdocument
    exact hread document ((sortDocuments_perm documents).mem_iff.1 hdocument)
  rw [visits, firstClash?_flatMap]
  apply Steps.Reports.mapM
  intro name _
  apply (merges_nil name).reports_foldlM (sortDocuments_strict hnames)
  · exact fun document hdocument =>
      isSome_namespaceFor? (hsorted document hdocument).isSome_default name
  · exact fun document hdocument => (hsorted document hdocument).nodup_names

theorem eq_namesOf {targets : List String} (htargets : targets.Pairwise (· < ·))
    (hused : ∀ name, name ∈ targets ↔ Used documents name) : targets = namesOf documents := by
  apply eq_of_strict_of_mem htargets (sortedNames_strict _)
  intro name
  rw [hused]
  exact mem_namesOf.symm

/-- Resolution fails exactly if a visit clashes. With the targets and the documents in the order of
their names, the fault is that of the first such visit and cites the one declaration of an
earlier document that it repeats. -/
theorem resolve_eq_error_iff (hread : ∀ document ∈ documents, document.IsRead)
    {targets : List String} (htargets : targets.Pairwise (· < ·))
    (hused : ∀ name, name ∈ targets ↔ Used documents name)
    {ordered : List Document} (hordered : ordered.Pairwise (·.name < ·.name))
    (hperm : ordered.Perm documents) {fault : Fault} :
    resolve documents = .error fault ↔
      ∃ visit, (visits targets ordered).find? (·.Clashes ordered) = some visit ∧
        ∃ space earlier other, visit.document.namespaceFor? visit.target = some space ∧
          (∀ document definition, visit.Repeats ordered document definition ↔
            document = earlier ∧ definition = other) ∧
          fault = { visit.fault space (earlier.place other.line) with
            source? := some visit.document.lines } := by
  have hnames := ((hperm.map _).nodup_iff).1 (nodup_names_of_strict hordered)
  rw [eq_sortDocuments hperm hordered, eq_namesOf htargets hused]
  exact (reports_resolve hnames hread).error_iff fault

end Resolve

/-- A document with two definitions, as it is read from its lines. -/
def limits : Document where
  name := "limits.thrift"
  lines := ["namespace go shared", "const i32 BASE = 1", "const i32 LIMIT = 7"]
  namespaces := [("default", "limits"), ("go", "shared")]
  definitions := [⟨⟨"BASE", 1⟩, .const "i32" "1"⟩, ⟨⟨"LIMIT", 2⟩, .const "i32" "7"⟩]

/-- A document that declares the names of the other in the opposite order. -/
def users : Document where
  name := "users.thrift"
  lines := ["namespace go shared", "const i32 LIMIT = 9", "const i32 BASE = 2"]
  namespaces := [("default", "users"), ("go", "shared")]
  definitions := [⟨⟨"LIMIT", 1⟩, .const "i32" "9"⟩, ⟨⟨"BASE", 2⟩, .const "i32" "2"⟩]

/-- Of the two names that clash, the one that comes first in the later document is reported. -/
theorem resolve_users_limits :
    resolve [users, limits] = .error {
      category := .duplicateIdentifier .sharedNamespace ⟨"limits.thrift", 2⟩
      message := .ok
        ("identifier `LIMIT` is already declared in namespace `shared` of target `go` " ++
          "(previous declaration at limits.thrift:3)")
      location? := some ⟨"users.thrift", 1⟩
      source? := some users.lines } := by
  have hread : ∀ document ∈ [users, limits], document.IsRead := by
    simp only [List.forall_mem_cons, List.not_mem_nil, false_imp_iff, implies_true, and_true]
    constructor
    · exact ⟨{ Document.ofSource "users.thrift" "" with lines := users.lines }, by decide,
        by decide +kernel⟩
    · exact ⟨{ Document.ofSource "limits.thrift" "" with lines := limits.lines }, by decide,
        by decide +kernel⟩
  have hused : ∀ name, name ∈ ["default", "go"] ↔ Used [users, limits] name := by
    intro name
    by_cases hdefault : name = "default"
    · simp [Used, hdefault, defaultTarget]
    · simp [Used, hdefault, users, limits, Table.keys, defaultTarget]
  have hordered : [limits, users].Pairwise (·.name < ·.name) := by decide
  have hperm : [limits, users].Perm [users, limits] := List.Perm.swap users limits []
  refine (resolve_eq_error_iff hread (by decide) hused hordered hperm).2 ⟨⟨"go", users,
    ⟨⟨"LIMIT", 1⟩, .const "i32" "9"⟩⟩, by decide, "shared", limits,
    ⟨⟨"LIMIT", 2⟩, .const "i32" "7"⟩, by decide, ?_, by decide⟩
  intro document definition
  constructor
  · rintro ⟨hmem, hlt, -, hdeclares, hname⟩
    rcases List.mem_pair.1 hmem with rfl | rfl
    · rcases List.mem_pair.1 hdeclares with rfl | rfl
      · exact absurd hname (by decide)
      · exact ⟨rfl, rfl⟩
    · exact absurd hlt (by decide)
  · rintro ⟨rfl, rfl⟩
    constructor <;> decide

end Target

end ThriftIdl

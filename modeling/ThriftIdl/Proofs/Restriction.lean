import ThriftIdl.Proofs.Document.WellFormed
import ThriftIdl.Proofs.Internal

/-!
Models of fewer documents. Documents that can be parsed can be parsed without some of them, and
every target then shows what it showed of those that are left, in the same order.
-/

namespace ThriftIdl

namespace Target

variable {documents kept : List Document}

/-- The target shows what another of its name does, but only of the documents with the names. -/
structure Restricts (names : List String) (part whole : Target) : Prop where
  name_eq : part.name = whole.name
  referencesOf : ∀ space ∈ part.namespaces, ∃ other, whole.namespace? space.name = some other ∧
    ∀ kind, space.referencesOf kind =
      (other.referencesOf kind).filter fun reference => decide (reference.document ∈ names)

/-- To sort some of the documents is to pick them from all that are sorted. -/
theorem sortDocuments_of_subset (hnames : (documents.map (·.name)).Nodup)
    (hkept : (kept.map (·.name)).Nodup) (hsubset : ∀ document ∈ kept, document ∈ documents) :
    sortDocuments kept =
      (sortDocuments documents).filter fun document =>
        decide (document.name ∈ kept.map (·.name)) := by
  have hmem : ∀ document, document ∈ sortDocuments kept ↔
      document ∈ (sortDocuments documents).filter fun document =>
        decide (document.name ∈ kept.map (·.name)) := by
    intro document
    rw [List.mem_filter, decide_eq_true_eq, (sortDocuments_perm kept).mem_iff,
      (sortDocuments_perm documents).mem_iff]
    constructor
    · intro hdocument
      exact ⟨hsubset document hdocument, List.mem_map_of_mem hdocument⟩
    · rintro ⟨hdocument, hname⟩
      obtain ⟨other, hother, heq⟩ := List.mem_map.1 hname
      rwa [List.inj_on_of_nodup_map hnames hdocument (hsubset other hother) heq.symm]
  have hstrict := sortDocuments_strict hkept
  have hfiltered := (sortDocuments_strict hnames).filter fun document =>
    decide (document.name ∈ kept.map (·.name))
  have hnodup := List.Nodup.of_map _ (nodup_names_sortDocuments hnames)
  have hnodupKept := List.Nodup.of_map _ (nodup_names_sortDocuments hkept)
  have hperm := (List.perm_ext_iff_of_nodup hnodupKept (hnodup.filter _)).2 hmem
  apply hperm.eq_of_pairwise _ hstrict hfiltered
  intro first second _ _ hlt hgt
  exact absurd (String.lt_trans hlt hgt) (String.lt_irrefl first.name)

/-- What items give is picked as the items are. -/
theorem flatMap_filter_eq {α β : Type} {items : List α} {f : α → List β} {p : α → Bool}
    {q : β → Bool} (h : ∀ item ∈ items, ∀ given ∈ f item, q given = p item) :
    (items.filter p).flatMap f = (items.flatMap f).filter q := by
  induction items with
  | nil => rfl
  | cons item items ih =>
    rw [List.forall_mem_cons] at h
    rw [List.flatMap_cons, List.filter_append, ← ih h.2]
    cases hitem : p item with
    | true =>
      have hfirst : (f item).filter q = f item :=
        List.filter_eq_self.2 fun given hgiven => (h.1 given hgiven).trans hitem
      rw [List.filter_cons_of_pos hitem, List.flatMap_cons, hfirst]
    | false =>
      have hfirst : (f item).filter q = [] :=
        List.filter_eq_nil_iff.2 fun given hgiven => by rw [h.1 given hgiven, hitem]; simp
      rw [List.filter_cons_of_neg (by simp [hitem]), hfirst, List.nil_append]

/-- A target that shows some of the documents restricts one that shows all of them. -/
theorem Exposes.restricts {names : List String} {part whole : Target}
    (hpart : part.Exposes (documents.filter fun document => decide (document.name ∈ names)))
    (hwhole : whole.Exposes documents) (hname : part.name = whole.name) :
    part.Restricts names whole where
  name_eq := hname
  referencesOf := by
    intro space hspace
    obtain ⟨document, hdocument, hspaceName⟩ :=
      (hpart.mem_names space.name).1 (List.mem_map_of_mem hspace)
    rw [hname] at hspaceName
    obtain ⟨other, hother, hotherName⟩ := List.mem_map.1
      ((hwhole.mem_names space.name).2 ⟨document, (List.mem_filter.1 hdocument).1, hspaceName⟩)
    refine ⟨other, (Lookup.find?_eq_some_iff hwhole.nodup_names).2 ⟨hother, hotherName⟩, ?_⟩
    intro kind
    rw [hpart.ordered space hspace, hwhole.ordered other hother, hotherName, hname,
      List.filter_comm]
    apply flatMap_filter_eq
    intro document _ reference hreference
    obtain ⟨definition, -, rfl⟩ := List.mem_map.1 hreference
    rfl

theorem Compatible.of_subset {name : String} (h : Compatible documents name)
    (hsubset : ∀ document ∈ kept, document ∈ documents) : Compatible kept name :=
  fun left hleft right hright => h left (hsubset left hleft) right (hsubset right hright)

theorem Used.of_subset {name : String} (h : Used kept name)
    (hsubset : ∀ document ∈ kept, document ∈ documents) : Used documents name :=
  h.imp_right fun ⟨document, hdocument, hkey⟩ => ⟨document, hsubset document hdocument, hkey⟩

/-- Documents that can be merged can be merged without some of them, and every target then
restricts the one it was. -/
theorem exists_resolve_of_subset (hnames : (documents.map (·.name)).Nodup)
    (hdefault : ∀ document ∈ documents, (document.namespaces.get? defaultTarget).isSome)
    (hdefinitions : ∀ document ∈ documents, (document.definitions.map (·.name)).Nodup)
    (hkept : (kept.map (·.name)).Nodup) (hsubset : ∀ document ∈ kept, document ∈ documents)
    {targets : List Target} (h : resolve documents = .ok targets) :
    ∃ parts, resolve kept = .ok parts ∧
      ∀ part ∈ parts, ∃ whole ∈ targets, part.Restricts (kept.map (·.name)) whole := by
  have hkeptDefault : ∀ document ∈ kept, (document.namespaces.get? defaultTarget).isSome :=
    fun document hdocument => hdefault document (hsubset document hdocument)
  have hcompatible := (exists_resolve_iff hnames hdefault hdefinitions).1 ⟨targets, h⟩
  obtain ⟨parts, hparts⟩ : ∃ parts, resolve kept = .ok parts := by
    rw [exists_resolve_iff hkept hkeptDefault
      fun document hdocument => hdefinitions document (hsubset document hdocument)]
    intro name hused
    exact (hcompatible name (hused.of_subset hsubset)).of_subset hsubset
  refine ⟨parts, hparts, ?_⟩
  intro part hpart
  have hused : part.name ∈ namesOf documents := by
    have hname : part.name ∈ namesOf kept := by
      rw [← map_name_of_resolve hparts]
      exact List.mem_map_of_mem hpart
    have hkeptUsed : Used kept part.name := mem_namesOf.1 hname
    exact mem_namesOf.2 (hkeptUsed.of_subset hsubset)
  rw [← map_name_of_resolve h] at hused
  obtain ⟨whole, hwhole, hname⟩ := List.mem_map.1 hused
  refine ⟨whole, hwhole, ?_⟩
  have hpartExposes := (merges_of_mem_resolve hparts hpart).exposes
    (nodup_names_sortDocuments hkept) (isSome_namespaceFor?_sortDocuments hkeptDefault part.name)
  have hwholeExposes := (merges_of_mem_resolve h hwhole).exposes
    (nodup_names_sortDocuments hnames) (isSome_namespaceFor?_sortDocuments hdefault whole.name)
  rw [sortDocuments_of_subset hnames hkept hsubset] at hpartExposes
  exact hpartExposes.restricts hwholeExposes hname.symm

end Target

namespace Model

variable {pairs : List (String × String)} {model : Model} {documents : List Document}

/-- The documents of a model can all be read exactly if the texts that were added to it can. -/
theorem Built.exists_mapM_read_iff (h : Built pairs model) :
    (∃ documents, model.documents.mapM Document.read = .ok documents) ↔
      ∀ pair ∈ pairs, ∃ document, (Document.ofSource pair.1 pair.2).read = .ok document := by
  rw [Steps.exists_mapM_eq_ok_iff]
  apply Steps.forall_mem_iff_of_forall₂ h.versions
  intro document pair hversion
  rw [hversion.read_eq.1]

/-- The documents of a model as read are what the texts that were added to it are read to. -/
theorem Built.mem_of_mapM_read_iff (h : Built pairs model)
    (hread : model.documents.mapM Document.read = .ok documents) {document : Document} :
    document ∈ documents ↔
      ∃ pair ∈ pairs, (Document.ofSource pair.1 pair.2).read = .ok document := by
  constructor
  · intro hdocument
    obtain ⟨source, hsource, hresult⟩ := Steps.exists_of_mem_mapM hread hdocument
    obtain ⟨pair, hpair, hversion⟩ := Steps.exists_right_of_forall₂ h.versions hsource
    exact ⟨pair, hpair, hversion.read_eq.1 ▸ hresult⟩
  · rintro ⟨pair, hpair, hdocument⟩
    obtain ⟨source, hsource, (hversion : source.Version pair.1 pair.2)⟩ :=
      Steps.exists_right_of_forall₂ h.versions.flip hpair
    obtain ⟨result, hresult, hsourceRead⟩ := Steps.exists_mem_of_mapM hread hsource
    rw [hversion.read_eq.1, hdocument] at hsourceRead
    cases hsourceRead
    exact hresult

theorem Built.map_name_of_mapM_read (h : Built pairs model)
    (hread : model.documents.mapM Document.read = .ok documents) :
    documents.map (·.name) = pairs.map Prod.fst :=
  (Model.map_name_of_mapM_read hread).trans h.map_name

/-- What every text is read to has a namespace for the default target, and its names are apart. -/
theorem Built.sound_of_mapM_read (h : Built pairs model)
    (hread : model.documents.mapM Document.read = .ok documents) :
    (∀ document ∈ documents, (document.namespaces.get? defaultTarget).isSome) ∧
      ∀ document ∈ documents, (document.definitions.map (·.name)).Nodup := by
  constructor
  · intro document hdocument
    obtain ⟨pair, -, hresult⟩ := (h.mem_of_mapM_read_iff hread).1 hdocument
    exact rooted_of_read hresult (rooted_ofSource pair.1 pair.2)
  · intro document hdocument
    obtain ⟨pair, -, hresult⟩ := (h.mem_of_mapM_read_iff hread).1 hdocument
    exact Document.nodup_names_of_read hresult

/-- A parse succeeds with documents and targets exactly if the documents are read and merged to
them. -/
theorem parse_eq_ok_iff (hnames : (model.documents.map (·.name)).Nodup)
    (hparsed : model.parsed = false) {targets : List Target} :
    (model.parse.1 = .ok () ∧ model.parse.2.documents = documents ∧
        model.parse.2.targets = targets) ↔
      model.documents.mapM Document.read = .ok documents ∧
        Target.resolve documents = .ok targets := by
  constructor
  · rintro ⟨hok, rfl, rfl⟩
    rcases parse_cases hnames hparsed with
      ⟨fault, -, hparse⟩ | ⟨documents, hread, ⟨fault, -, hparse⟩ | ⟨targets, hresolve, hparse⟩⟩
    · rw [hparse] at hok
      cases hok
    · rw [hparse] at hok
      cases hok
    · rw [hparse]
      exact ⟨hread, hresolve⟩
  · rintro ⟨hread, hresolve⟩
    rw [parse_of_read hnames hparsed hread, merged, hresolve]
    exact ⟨rfl, rfl, rfl⟩

/-- A text's document, as it is read, is found in the parsed model under the text's name. -/
theorem Built.document?_of_mapM_read (h : Built pairs model)
    (hread : model.documents.mapM Document.read = .ok documents) {pair : String × String}
    (hpair : pair ∈ pairs) {document : Document}
    (hdocument : (Document.ofSource pair.1 pair.2).read = .ok document) :
    documents.find? (·.name == pair.1) = some document := by
  have hnames : (documents.map (·.name)).Nodup := by
    rw [h.map_name_of_mapM_read hread]
    exact h.nodup_names
  apply (Lookup.find?_eq_some_iff hnames).2
  exact ⟨(h.mem_of_mapM_read_iff hread).2 ⟨pair, hpair, hdocument⟩,
    (Document.name_lines_of_read hdocument).1⟩

/-- After two runs of calls that left their models unparsed, one of which added no document that
the other did not: if parsing succeeds with all documents, it does with those of the one. Each of
these is read to the same in both, and every target of the one shows what that of the other does
of them, in the same order. -/
theorem parse_of_subset {whole part : List Call} (hwhole : (empty.run whole).parsed = false)
    (hpart : (empty.run part).parsed = false)
    (hsubset : ∀ pair ∈ empty.added part, pair ∈ empty.added whole)
    (hok : (empty.run whole).parse.1 = .ok ()) :
    (empty.run part).parse.1 = .ok () ∧
      (∀ pair ∈ empty.added part, ∃ document,
        (Document.ofSource pair.1 pair.2).read = .ok document ∧
        (empty.run part).parse.2.document? pair.1 = some document ∧
        (empty.run whole).parse.2.document? pair.1 = some document) ∧
      ∀ target ∈ (empty.run part).parse.2.targets, ∃ other,
        (empty.run whole).parse.2.target? target.name = some other ∧
        target.Restricts ((empty.added part).map Prod.fst) other := by
  have hbuilt := built_run whole
  have hbuiltPart := built_run part
  obtain ⟨hread, hresolve⟩ :=
    (parse_eq_ok_iff hbuilt.nodup_document_names hwhole).1 ⟨hok, rfl, rfl⟩
  have hreads := hbuilt.exists_mapM_read_iff.1 ⟨_, hread⟩
  obtain ⟨kept, hkept⟩ := hbuiltPart.exists_mapM_read_iff.2
    fun pair hpair => hreads pair (hsubset pair hpair)
  have hkeptSubset : ∀ document ∈ kept, document ∈ (empty.run whole).parse.2.documents := by
    intro document hdocument
    obtain ⟨pair, hpair, hresult⟩ := (hbuiltPart.mem_of_mapM_read_iff hkept).1 hdocument
    exact (hbuilt.mem_of_mapM_read_iff hread).2 ⟨pair, hsubset pair hpair, hresult⟩
  obtain ⟨hdefault, hdefinitions⟩ := hbuilt.sound_of_mapM_read hread
  obtain ⟨parts, hparts, hrestricts⟩ := Target.exists_resolve_of_subset
    (hbuilt.map_name_of_mapM_read hread ▸ hbuilt.nodup_names) hdefault hdefinitions
    (hbuiltPart.map_name_of_mapM_read hkept ▸ hbuiltPart.nodup_names) hkeptSubset hresolve
  obtain ⟨hpartOk, hdocuments, htargets⟩ :=
    (parse_eq_ok_iff hbuiltPart.nodup_document_names hpart).2 ⟨hkept, hparts⟩
  refine ⟨hpartOk, ?_, ?_⟩
  · intro pair hpair
    obtain ⟨document, hdocument⟩ := hreads pair (hsubset pair hpair)
    refine ⟨document, hdocument, ?_, ?_⟩
    · rw [document?, hdocuments]
      exact hbuiltPart.document?_of_mapM_read hkept hpair hdocument
    · exact hbuilt.document?_of_mapM_read hread (hsubset pair hpair) hdocument
  · intro target htarget
    rw [htargets] at htarget
    obtain ⟨other, hother, hrestrict⟩ := hrestricts target htarget
    rw [hbuiltPart.map_name_of_mapM_read hkept] at hrestrict
    refine ⟨other, ?_, hrestrict⟩
    exact (Lookup.find?_eq_some_iff (Target.nodup_names_of_resolve hresolve)).2
      ⟨hother, hrestrict.name_eq.symm⟩

/-- Two documents that share a namespace of one target, and one that has a target of its own. -/
def threeTexts : List (String × String) := [
  ("a.thrift", "namespace go shared\nconst i32 X = 1"),
  ("b.thrift", "namespace go shared\nconst i64 Y = 2"),
  ("c.thrift", "namespace py other\nconst i32 X = 3")]

/-- The three documents as they are read. -/
def threeRead : List Document := [
  { name := "a.thrift", lines := ["namespace go shared", "const i32 X = 1"],
    namespaces := [("default", "a"), ("go", "shared")],
    definitions := [⟨⟨"X", 1⟩, .const "i32" "1"⟩] },
  { name := "b.thrift", lines := ["namespace go shared", "const i64 Y = 2"],
    namespaces := [("default", "b"), ("go", "shared")],
    definitions := [⟨⟨"Y", 1⟩, .const "i64" "2"⟩] },
  { name := "c.thrift", lines := ["namespace py other", "const i32 X = 3"],
    namespaces := [("default", "c"), ("py", "other")],
    definitions := [⟨⟨"X", 1⟩, .const "i32" "3"⟩] }]

theorem exists_resolve_threeRead : ∃ targets, Target.resolve threeRead = .ok targets := by
  rw [Target.exists_resolve_iff (by decide) (by decide) (by decide)]
  intro name hused
  have hname : name = "default" ∨ name = "go" ∨ name = "py" := by
    rcases hused with rfl | ⟨document, hdocument, hkey⟩
    · exact Or.inl rfl
    · simp only [threeRead, List.mem_cons, List.not_mem_nil, or_false] at hdocument
      rcases hdocument with rfl | rfl | rfl
      all_goals
        simp only [Table.keys, List.map_cons, List.map_nil, List.mem_cons, List.not_mem_nil,
          or_false] at hkey
        tauto
  rcases hname with rfl | rfl | rfl
  all_goals decide

/-- Without the first document, and the others added the other way around, the shared namespace
shows what it showed of the second. -/
theorem parse_of_subset_three :
    (empty.run (addAll threeTexts)).parse.1 = .ok () ∧
      (empty.run (addAll threeTexts.tail.reverse)).parse.1 = .ok () ∧
      ∀ target ∈ (empty.run (addAll threeTexts.tail.reverse)).parse.2.targets, ∃ other,
        (empty.run (addAll threeTexts)).parse.2.target? target.name = some other ∧
        target.Restricts ["c.thrift", "b.thrift"] other := by
  have hsubset : ∀ pair ∈ empty.added (addAll threeTexts.tail.reverse),
      pair ∈ empty.added (addAll threeTexts) := by
    have hadded : empty.added (addAll threeTexts) = threeTexts := rfl
    have hpart : empty.added (addAll threeTexts.tail.reverse) = threeTexts.tail.reverse := rfl
    rw [hadded, hpart]
    decide
  have hread : (empty.run (addAll threeTexts)).documents.mapM Document.read = .ok threeRead := by
    decide +kernel
  obtain ⟨targets, hresolve⟩ := exists_resolve_threeRead
  have hok := ((parse_eq_ok_iff (by decide) rfl).2 ⟨hread, hresolve⟩).1
  obtain ⟨hpartOk, -, htargets⟩ := parse_of_subset rfl rfl hsubset hok
  exact ⟨hok, hpartOk, htargets⟩

end Model

end ThriftIdl

import ThriftIdl.Proofs.Document.Faults
import ThriftIdl.Proofs.Failure
import ThriftIdl.Proofs.Model.Refusals
import ThriftIdl.Proofs.Obstruction

/-!
Rules that the program must keep. Every meaningful line has a token, no document is lost while a
model is parsed, and every document has a namespace for every target: the last holds of documents
that were added but not of all that bytes write.
-/

namespace ThriftIdl.Model

/-- The fault for a document that is no longer there. -/
def vanished (name : String) : Fault where
  category := .internal
  message := .ok s!"document `{name}` vanished"

/-- The documents with the names, looked up and read one after the other, up to the first that
cannot be; and the warnings of all that were tried. -/
def readNamed (documents : List Document) :
    List String → Except Fault (List Document) × List Warning
  | [] => (.ok [], [])
  | name :: names =>
    match documents.find? (·.name == name) with
    | none => (.error (vanished name), [])
    | some document =>
      match document.read with
      | .error fault => (.error fault, document.warnings)
      | .ok first =>
        let (result, warnings) := readNamed documents names
        (result.map (first :: ·), document.warnings ++ warnings)

/-- The documents with one in the place of the document with its name. -/
def replaced (documents : List Document) (document : Document) : List Document :=
  documents.map fun other => if other.name = document.name then document else other

/-- The documents with others, one after the other, each in the place of the document with its
name. -/
def install (documents : List Document) : List Document → Except Fault Unit × List Document
  | [] => (.ok (), documents)
  | document :: rest =>
    match documents.find? (·.name == document.name) with
    | none => (.error (vanished document.name), documents)
    | some _ => install (replaced documents document) rest

/-- Parsing with every document looked up by its name, to be read and to be replaced. -/
def parseNamed (model : Model) : Except Fault Unit × Model :=
  if model.parsed then
    (.error {
      category := .alreadyParsed
      message := .ok "the model has already been parsed" }, model)
  else
    let names := (model.documents.map (·.name)).mergeSort (fun left right => decide (left ≤ right))
    let (result, warnings) := readNamed model.documents names
    let model := { model with warnings := model.warnings ++ warnings }
    match result with
    | .error fault => (.error fault, model)
    | .ok read =>
      let (result, documents) := install model.documents read
      let model := { model with documents := documents }
      match result with
      | .error fault => (.error fault, model)
      | .ok () =>
        match Target.resolve model.documents with
        | .error fault => (.error fault, model)
        | .ok targets => (.ok (), { model with targets := targets, parsed := true })

theorem readNamed_eq {documents : List Document} (hnames : (documents.map (·.name)).Nodup)
    {chosen : List Document} (h : ∀ document ∈ chosen, document ∈ documents) :
    readNamed documents (chosen.map (·.name)) = readAll chosen := by
  induction chosen with
  | nil => rfl
  | cons document chosen ih =>
    rw [List.forall_mem_cons] at h
    have hfound : documents.find? (·.name == document.name) = some document :=
      (Lookup.find?_eq_some_iff hnames).2 ⟨h.1, rfl⟩
    rw [List.map_cons]
    cases hread : document.read with
    | error fault => simp only [readNamed, readAll, hfound, hread]
    | ok first => simp only [readNamed, readAll, hfound, hread, ih h.2]

theorem install_eq {documents read : List Document} (hread : (read.map (·.name)).Nodup)
    (h : ∀ document ∈ read, document.name ∈ documents.map (·.name)) :
    install documents read = (.ok (), documents.map (updated read)) := by
  induction read generalizing documents with
  | nil =>
    rw [install]
    congr 1
    exact (List.map_id' documents).symm
  | cons first read ih =>
    rw [List.forall_mem_cons] at h
    rw [List.map_cons, List.nodup_cons] at hread
    have hnames : (replaced documents first).map (·.name) = documents.map (·.name) := by
      rw [replaced, List.map_map]
      apply List.map_congr_left
      intro other _
      by_cases hname : other.name = first.name
      · simp [hname]
      · simp [hname]
    have hfound : documents.find? (·.name == first.name) ≠ none := by
      rw [ne_eq, Lookup.find?_eq_none_iff, not_not]
      exact h.1
    obtain ⟨found, hfound⟩ := Option.ne_none_iff_exists'.1 hfound
    have hrest : install (replaced documents first) read =
        (.ok (), (replaced documents first).map (updated read)) := by
      apply ih hread.2
      rw [hnames]
      exact h.2
    simp only [install, hfound]
    rw [hrest, replaced, List.map_map]
    congr 1
    apply List.map_congr_left
    intro other _
    simp only [Function.comp_apply, updated, List.find?_cons]
    by_cases hname : other.name = first.name
    · have hnone : read.find? (·.name == first.name) = none :=
        Lookup.find?_eq_none_iff.2 hread.1
      simp [hname, hnone]
    · have hother : (first.name == other.name) = false := by
        simpa using Ne.symm hname
      simp [hname, hother]

/-- No document is lost while a model is parsed: looking all of them up makes no difference. -/
theorem parseNamed_eq {model : Model} (hnames : (model.documents.map (·.name)).Nodup) :
    model.parseNamed = model.parse := by
  have hsorted : (model.documents.map (·.name)).mergeSort
      (fun left right => decide (left ≤ right)) =
        (Target.sortDocuments model.documents).map (·.name) := by
    rw [Target.sortDocuments]
    exact (List.map_mergeSort (f := Document.name) fun _ _ _ _ => rfl).symm
  have hperm := Target.sortDocuments_perm model.documents
  have hread := readNamed_eq hnames fun document hdocument => hperm.mem_iff.1 hdocument
  simp only [parseNamed, parse, hsorted, hread]
  split
  · rfl
  · cases hall : readAll (Target.sortDocuments model.documents) with
    | mk result warnings =>
      cases result with
      | error fault => rfl
      | ok read =>
        have hresults : (Target.sortDocuments model.documents).mapM Document.read = .ok read := by
          rw [← readAll_fst, hall]
        have hsame : read.map (·.name) = (Target.sortDocuments model.documents).map (·.name) :=
          map_name_of_mapM_read hresults
        have hinstall : install model.documents read =
            (.ok (), model.documents.map (updated read)) := by
          apply install_eq
          · rw [hsame]
            exact (hperm.map _).nodup_iff.2 hnames
          · intro document hdocument
            rw [← (hperm.map _).mem_iff, ← hsame]
            exact List.mem_map_of_mem hdocument
        cases hresolve : Target.resolve (model.documents.map (updated read)) with
        | error fault => simp only [hinstall, hresolve]
        | ok targets => simp only [hinstall, hresolve]

/-- Every document of the model has a namespace for the default target. -/
def Rooted (model : Model) : Prop :=
  ∀ document ∈ model.documents, (document.namespaces.get? defaultTarget).isSome

theorem rooted_ofSource (name source : String) :
    ((Document.ofSource name source).namespaces.get? defaultTarget).isSome := by
  simp [Document.ofSource, Table.get?]

/-- Reading a document takes none of its namespaces. -/
theorem rooted_of_read {document result : Document} (h : document.read = .ok result)
    (hdefault : (document.namespaces.get? defaultTarget).isSome) :
    (result.namespaces.get? defaultTarget).isSome := by
  obtain ⟨definitions, -, rfl⟩ := Document.read_eq_ok_iff.1 h
  change ((Header.read document.namespaces (Line.meaningful document.lines)).namespaces.get?
    defaultTarget).isSome
  rw [Header.read_namespaces, Table.get?_foldl_insert, Option.isSome_or, hdefault, Bool.or_true]

theorem Rooted.of_mapM {documents read : List Document}
    (h : ∀ document ∈ documents, (document.namespaces.get? defaultTarget).isSome)
    (hread : documents.mapM Document.read = .ok read) :
    ∀ document ∈ read, (document.namespaces.get? defaultTarget).isSome := by
  intro document hdocument
  obtain ⟨source, hsource, hresult⟩ := Steps.exists_of_mem_mapM hread hdocument
  exact rooted_of_read hresult (h source hsource)

theorem Rooted.step {model : Model} (h : model.Rooted)
    (hnames : (model.documents.map (·.name)).Nodup) (call : Call) : (model.step call).2.Rooted := by
  rw [Rooted]
  rcases documents_step hnames call with hstep | ⟨name, source, -, hstep⟩ | hread
  · rw [hstep]
    exact h
  · rw [hstep, List.forall_mem_append, List.forall_mem_singleton]
    exact ⟨h, rooted_ofSource name source⟩
  · exact Rooted.of_mapM h hread

/-- The call ends in a fault that says that a rule of the program was broken. -/
def Breaks (model : Model) (call : Call) : Prop :=
  ∃ fault, (model.step call).1 = .error (.fault fault) ∧ fault.category = .internal

theorem category_of_add {model : Model} {name source : String} {fault : Fault}
    (h : model.add name source = .error fault) : fault.category ≠ .internal := by
  rw [add] at h
  split at h
  · cases h
    simp
  · split at h
    · cases h
      simp
    · cases h

/-- Adding a document breaks no rule of the program, whatever its text. -/
theorem not_breaks_of_ne {model : Model} {call : Call} (hcall : call ≠ .parse) :
    ¬model.Breaks call := by
  rintro ⟨fault, hfault, hinternal⟩
  cases call with
  | parse => exact hcall rfl
  | drain => cases hfault
  | look => cases hfault
  | add name source =>
    cases hadd : model.add name source with
    | ok next =>
      rw [step, hadd] at hfault
      cases hfault
    | error other =>
      rw [step, hadd] at hfault
      cases hfault
      exact category_of_add hadd hinternal
  | addBytes name bytes =>
    cases hadd : model.addBytes name bytes with
    | ok next =>
      rw [step, hadd] at hfault
      cases hfault
    | error other =>
      rw [step, hadd] at hfault
      cases hfault
      obtain ⟨source, -, hsource⟩ := addBytes_eq_fault_iff.1 hadd
      exact category_of_add hsource hinternal

theorem breaks_parse_iff {model : Model} :
    model.Breaks .parse ↔ ∃ fault, model.parse.1 = .error fault ∧ fault.category = .internal := by
  rw [Breaks, step]
  cases model.parse.1 with
  | ok value => simp [Except.mapError]
  | error fault => simp [Except.mapError]

/-- A call breaks a rule of the program exactly if it parses documents that can all be read and one
without a namespace for a target is what stops them from being merged. -/
theorem breaks_iff {model : Model} (hnames : (model.documents.map (·.name)).Nodup) {call : Call} :
    model.Breaks call ↔ call = .parse ∧ model.parsed = false ∧
      ∃ documents, model.documents.mapM Document.read = .ok documents ∧
        Target.Uncovered documents := by
  by_cases hcall : call = .parse
  · subst hcall
    rw [breaks_parse_iff]
    by_cases hparsed : model.parsed = true
    · rw [parse_of_parsed hparsed]
      simp [hparsed]
    · rw [Bool.not_eq_true] at hparsed
      constructor
      · rintro ⟨fault, hfault, hinternal⟩
        refine ⟨rfl, hparsed, ?_⟩
        rcases parse_cases hnames hparsed with
          ⟨other, hread, hparse⟩ |
            ⟨documents, hread, ⟨other, hresolve, hparse⟩ | ⟨targets, -, hparse⟩⟩
        · rw [hparse] at hfault
          cases hfault
          rw [readAll_fst] at hread
          obtain ⟨_, document, _, -, -, hdocument⟩ := Steps.mapM_eq_error_iff.1 hread
          exact absurd hinternal (Document.read_ne_internal hdocument)
        · rw [hparse] at hfault
          cases hfault
          exact ⟨documents, hread, Target.resolve_internal_iff.1 ⟨fault, hresolve, hinternal⟩⟩
        · rw [hparse] at hfault
          cases hfault
      · rintro ⟨-, -, documents, hread, huncovered⟩
        obtain ⟨fault, hresolve, hinternal⟩ := Target.resolve_internal_iff.2 huncovered
        refine ⟨fault, ?_, hinternal⟩
        rw [parse_of_read hnames hparsed hread, merged, hresolve]
  · exact iff_of_false (not_breaks_of_ne hcall) fun h => hcall h.1

/-- Documents that all have a namespace for the default target are never without one. -/
theorem not_uncovered {documents : List Document}
    (h : ∀ document ∈ documents, (document.namespaces.get? defaultTarget).isSome) :
    ¬Target.Uncovered documents := by
  rintro ⟨earlier, name, later, before, document, after, -, hdocuments, -, -, hnone⟩
  have hdocument : document ∈ documents := by
    rw [← (Target.sortDocuments_perm documents).mem_iff, hdocuments]
    simp
  have hsome := Target.isSome_namespaceFor? (h document hdocument) name
  rw [hnone] at hsome
  cases hsome

theorem Rooted.not_breaks {model : Model} (h : model.Rooted)
    (hnames : (model.documents.map (·.name)).Nodup) (call : Call) : ¬model.Breaks call := by
  rw [breaks_iff hnames]
  rintro ⟨-, -, documents, hread, huncovered⟩
  exact not_uncovered (Rooted.of_mapM h hread) huncovered

/-- After any calls, no call on a rooted model breaks a rule of the program. -/
theorem Rooted.not_breaks_run {model : Model} (h : model.Rooted)
    (hnames : (model.documents.map (·.name)).Nodup) (calls : List Call) (call : Call) :
    ¬(model.run calls).Breaks call := by
  induction calls generalizing model with
  | nil => exact h.not_breaks hnames call
  | cons first calls ih => exact ih (h.step hnames first) (nodup_names_step hnames first)

/-- Whatever texts and bytes a model came from, a call on it breaks a rule of the program exactly
if it parses documents that can all be read and one without a namespace for a target stops them
from being merged. That takes bytes that write a document without a default namespace: without
such no call does. Neither do bytes that are no model, a line without tokens, or a document that
is lost. -/
theorem breaks_of_reachable {model : Model} (h : Reachable model) :
    (∀ call, model.Breaks call ↔ call = .parse ∧ model.parsed = false ∧
      ∃ documents, model.documents.mapM Document.read = .ok documents ∧
        Target.Uncovered documents) ∧
    (model.Rooted → ∀ calls call, ¬(model.run calls).Breaks call) ∧
    (∀ bytes contexts fault, decode bytes = .error (.refused contexts (.fault fault)) →
      fault.category ≠ .internal) ∧
    (∀ raws, ∀ line ∈ Line.meaningful raws, line.tokens ≠ []) ∧
    model.parseNamed = model.parse :=
  ⟨fun _ => breaks_iff h.nodup_names, fun hrooted => hrooted.not_breaks_run h.nodup_names,
    fun _ _ _ => decode_ne_internal, fun _ _ => Line.tokens_ne_nil_of_mem_meaningful,
    parseNamed_eq h.nodup_names⟩

/-- A model that bytes can write: its document has no namespace for any target. -/
def rootless : Model where
  documents := [
    { name := "a.thrift", lines := ["const i32 X = 1"], namespaces := [], definitions := [] }]

theorem portable_rootless : rootless.Portable where
  documents := by
    simp only [rootless, List.forall_mem_singleton]
    exact ⟨by simp, by decide, by decide⟩
  nodup_documents := by decide
  targets := by simp [rootless]
  nodup_targets := by decide

theorem reachable_rootless : Reachable rootless :=
  .decoded (decode_encode_of_portable portable_rootless)

/-- The document as it is read: still without a namespace. -/
def rootlessRead : Document where
  name := "a.thrift"
  lines := ["const i32 X = 1"]
  namespaces := []
  definitions := [⟨⟨"X", 0⟩, .const "i32" "1"⟩]

theorem uncovered_rootless :
    ∃ documents, rootless.documents.mapM Document.read = .ok documents ∧
      Target.Uncovered documents := by
  refine ⟨[rootlessRead], by decide +kernel, [], defaultTarget, [], [], rootlessRead, [],
    by decide +kernel, by decide +kernel, by simp, ?_, rfl⟩
  exact ⟨by simp, by simp [Target.contributed, Namespace.Apart]⟩

/-- Parsing a document that has no namespace breaks a rule of the program. -/
theorem breaks_rootless : Reachable rootless ∧ rootless.Breaks .parse :=
  ⟨reachable_rootless, (breaks_iff reachable_rootless.nodup_names).2
    ⟨rfl, rfl, uncovered_rootless⟩⟩

/-- Without namespaces parsing fails so; a document that was added has one. -/
theorem breaks_of_reachable_rootless :
    rootless.Breaks .parse ∧ ∀ calls call, ¬(empty.run calls).Breaks call := by
  refine ⟨((breaks_of_reachable reachable_rootless).1 .parse).2 ⟨rfl, rfl, uncovered_rootless⟩, ?_⟩
  exact (breaks_of_reachable .empty).2.1 (by simp [Rooted, empty])

end ThriftIdl.Model

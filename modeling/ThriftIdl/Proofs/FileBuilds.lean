import ThriftIdl.Builder
import ThriftIdl.Proofs.Calls
import ThriftIdl.Proofs.Document.Faults
import ThriftIdl.Proofs.Obstruction
import ThriftIdl.Proofs.Parsing
import ThriftIdl.Proofs.Sources

/-!
Builds from files. Only names that stand twice among the sources make two documents of one name, and
those of one folder never do.
-/

namespace ThriftIdl

theorem Rule.category_ne_duplicateDocument (rule : Rule) (document : String) :
    rule.category document ≠ .duplicateDocument := by
  cases rule with
  | _ => simp [category]

/-- The document has the source's name, and its text is the source's content. -/
def Source.Reads (source : Source) (document : Document) : Prop :=
  ∃ text, String.fromUTF8? source.content = some text ∧ document = .ofSource source.name text

namespace Model

/-- Parsing never finds that two documents have one name. -/
theorem category_of_parse {model : Model} {fault : Fault} (h : model.parse.1 = .error fault) :
    fault.category ≠ .duplicateDocument := by
  rw [parse] at h
  split at h
  · cases h
    simp
  · rcases hall : readAll (Target.sortDocuments model.documents) with ⟨other | read, warnings⟩
    · rw [hall] at h
      cases h
      have hread := congrArg Prod.fst hall
      rw [readAll_fst] at hread
      obtain ⟨_, document, _, -, -, hdocument⟩ := Steps.mapM_eq_error_iff.1 hread
      obtain ⟨violation, -, rfl⟩ := Document.read_eq_error_iff.1 hdocument
      rw [Fault.withSource_eq]
      exact Rule.category_ne_duplicateDocument _ _
    · rw [hall] at h
      dsimp only at h
      split at h
      · next other hresolve =>
        cases h
        rcases Target.category_of_resolve hresolve with hcategory | ⟨earlier, hcategory⟩
        · simp [hcategory]
        · simp [hcategory]
      · cases h

/-- Sources make up a model exactly if all their content is text and no name stands twice. -/
theorem addedBytes_eq_ok_iff {sources : List Source} {model : Model} :
    sources.foldlM (fun (model : Model) source =>
        model.addBytes source.name source.content) empty = .ok model ↔
      ∃ documents, List.Forall₂ Source.Reads sources documents ∧
        (documents.map (·.name)).Nodup ∧ model = { documents := documents } := by
  have hstep : ∀ source ∈ sources, ∀ (done : List Document) (result : Model),
      ({ documents := done } : Model).addBytes source.name source.content = .ok result ↔
        ∃ added, source.Reads added ∧ added.name ∉ done.map (·.name) ∧
          result = { documents := done ++ [added] } := by
    intro source _ done result
    rw [addBytes_eq_ok_iff]
    constructor
    · rintro ⟨text, htext, hadd⟩
      obtain ⟨-, hname, hresult⟩ := add_eq_ok_iff.1 hadd
      exact ⟨_, ⟨text, htext, rfl⟩, hname, hresult⟩
    · rintro ⟨_, ⟨text, htext, rfl⟩, hname, hresult⟩
      exact ⟨text, htext, add_eq_ok_iff.2 ⟨rfl, hname, hresult⟩⟩
  have hempty : (([] : List Document).map (·.name)).Nodup := List.nodup_nil
  exact Steps.foldlM_eq_ok_iff_apart (fun documents => ({ documents := documents } : Model))
    Source.Reads Document.name hstep hempty

/-- If all that hinders sources from making up a model is a fault, two of them have one name. -/
theorem names_of_addedBytes {sources : List Source} {fault : Fault}
    (h : sources.foldlM (fun (model : Model) source =>
      model.addBytes source.name source.content) empty = .error (.fault fault)) :
    ¬(sources.map (·.name)).Nodup := by
  intro hnames
  obtain ⟨before, source, after, model, rfl, hmodel, hsource⟩ := Steps.foldlM_eq_error_iff.1 h
  obtain ⟨documents, hreads, -, rfl⟩ := addedBytes_eq_ok_iff.1 hmodel
  obtain ⟨text, -, hadd⟩ := addBytes_eq_fault_iff.1 hsource
  have hdocuments : documents.map (·.name) = before.map (·.name) := by
    apply Steps.map_eq_of_forall₂ hreads
    rintro _ _ ⟨_, -, rfl⟩
    rfl
  have hnew : source.name ∉ documents.map (·.name) := by
    rw [List.append_cons] at hnames
    have hbefore := ((List.sublist_append_left _ _).map Source.name).nodup hnames
    rw [hdocuments]
    exact (Lookup.nodup_map_append_singleton.1 hbefore).2
  rw [add_eq_ok_iff.2 ⟨rfl, hnew, rfl⟩] at hadd
  cases hadd

end Model

namespace Builder

theorem finish_eq_error_iff {builder : Builder} {model : Model} {fault : Fault} :
    (builder.finish model).1 = .error fault ↔ model.parse.1 = .error fault := by
  change model.parse.1.map _ = _ ↔ _
  cases model.parse.1 with
  | ok value => simp [Except.map]
  | error other => simp [Except.map]

/-- Only if a name stands twice among the sources does a build find two documents of one name. -/
theorem names_of_buildFiles {builder : Builder} {files : Files} {inputs : List String}
    {fault : Fault} (h : (builder.buildFiles files inputs).1 = .error (.source (.fault fault)))
    (hcategory : fault.category = .duplicateDocument) :
    ∃ sources, Source.discover files inputs = .ok sources ∧ ¬(sources.map (·.name)).Nodup := by
  rw [buildFiles] at h
  split at h
  · cases h
  · next sources hsources =>
    refine ⟨sources, hsources, ?_⟩
    dsimp only at h
    split at h
    · next error hadded =>
      cases h
      exact Model.names_of_addedBytes hadded
    · next model hadded =>
      have hfinish : (builder.cleared.finish model).1 = .error fault := by
        cases hresult : (builder.cleared.finish model).1 with
        | ok value => simp [hresult, Except.mapError] at h
        | error other => simpa [hresult, Except.mapError] using h
      exact absurd hcategory (Model.category_of_parse (finish_eq_error_iff.1 hfinish))

end Builder

namespace Source

/-- A search succeeds exactly if every input is a folder or a document's file and there is a
document's file among them or below. It then gives, input after input, the documents' files below a
folder, each once and in the order of a walk, and a document's file itself. A source is named by the
names that lead to it from the folder, or by the last one to it, and its path leads to its content.
What one input gives has names apart, so that a build from it never finds two documents of one
name. -/
theorem discover_buildFiles {files : Files} (hfiles : files.root.WellFormed) :
    (∀ inputs, (∃ sources, discover files inputs = .ok sources) ↔
      (∀ path ∈ inputs, IsInput files path) ∧ ∃ path ∈ inputs, Reaches files path) ∧
    (∀ inputs sources, discover files inputs = .ok sources ↔ sources ≠ [] ∧
      ∃ given, List.Forall₂ (Gives files) inputs given ∧ sources = given.flatten) ∧
    (∀ path place content, files.locate? path = some place →
      files.root.at? place = some (.file content) →
        place.getLast? = some (Path.fileName path)) ∧
    (∀ path sources, Gives files path sources → (sources.map (·.name)).Nodup ∧
      ∀ source ∈ sources, files.content? source.path = some source.content) ∧
    ∀ (builder : Builder) path fault,
      (builder.buildFiles files [path]).1 = .error (.source (.fault fault)) →
        fault.category ≠ .duplicateDocument := by
  refine ⟨fun _ => exists_discover_iff hfiles, fun _ _ => discover_eq_ok_iff hfiles,
    fun _ _ _ => Files.getLast?_of_locate?,
    fun _ _ h => ⟨h.nodup_names hfiles, h.content?_path hfiles⟩, ?_⟩
  intro builder path fault hfault hcategory
  obtain ⟨sources, hsources, hnames⟩ := Builder.names_of_buildFiles hfault hcategory
  obtain ⟨-, given, hgiven, rfl⟩ := (discover_eq_ok_iff hfiles).1 hsources
  obtain ⟨one, _, hone, hnone, rfl⟩ := List.forall₂_cons_left_iff.1 hgiven
  cases hnone
  rw [List.flatten_cons, List.flatten_nil, List.append_nil] at hnames
  exact hnames (hone.nodup_names hfiles)

/-- Files in a working folder. A folder in it has the extension of documents, and of the files one
has nothing before it and one has no dot. -/
def library : Files where
  root := (((((Tree.folder []).put
    ["idl", "a.thrift", ".thrift"] (.file "const i32 A = 1".toUTF8)).put
    ["idl", "a.thrift", "c.thrift"] (.file "const i32 B = 1".toUTF8)).put
    ["idl", "b.thrift"] (.file "const i32 C = 1".toUTF8)).put
    ["idl", "xthrift"] (.file "const i32 D = 1".toUTF8)).put
    ["b.thrift"] (.file "const i32 E = 1".toUTF8)
  here := ["idl"]

/-- The entries of its working folder. -/
def libraryEntries : List (String × Tree) := [
  ("a.thrift", .folder [
    (".thrift", .file "const i32 A = 1".toUTF8), ("c.thrift", .file "const i32 B = 1".toUTF8)]),
  ("b.thrift", .file "const i32 C = 1".toUTF8),
  ("xthrift", .file "const i32 D = 1".toUTF8)]

theorem wellFormed_library : library.root.WellFormed := by
  have hfile : ∀ {tree : Tree} {place : List String} (content : ByteArray), tree.WellFormed →
      (∀ name ∈ place, Tree.IsName name) → (tree.put place (.file content)).WellFormed :=
    fun content htree hplace => htree.put hplace (.file content)
  refine hfile _ (hfile _ (hfile _ (hfile _ (hfile _ Tree.wellFormed_empty ?_) ?_) ?_) ?_) ?_
  all_goals decide

theorem node?_library : library.node? "." = some (.folder libraryEntries) := by
  rfl

theorem walk_libraryEntries : (Tree.folder libraryEntries).walk = [
    ⟨["a.thrift", ".thrift"], "const i32 A = 1".toUTF8⟩,
    ⟨["a.thrift", "c.thrift"], "const i32 B = 1".toUTF8⟩,
    ⟨["b.thrift"], "const i32 C = 1".toUTF8⟩, ⟨["xthrift"], "const i32 D = 1".toUTF8⟩] := by
  rw [Tree.walk_folder, List.mergeSort_of_pairwise (by decide), libraryEntries]
  simp only [List.flatMap_cons, Tree.walk_folder]
  rw [List.mergeSort_of_pairwise (by decide)]
  rfl

theorem discover_buildFiles_library :
    discover library [".", "../b.thrift"] = .ok [
      ⟨"a.thrift/c.thrift", "./a.thrift/c.thrift", "const i32 B = 1".toUTF8⟩,
      ⟨"b.thrift", "./b.thrift", "const i32 C = 1".toUTF8⟩,
      ⟨"b.thrift", "../b.thrift", "const i32 E = 1".toUTF8⟩] ∧
    (¬∃ sources, discover library [".", "xthrift"] = .ok sources) ∧
    ∀ fault, (({} : Builder).buildFiles library ["."]).1 = .error (.source (.fault fault)) →
      fault.category ≠ .duplicateDocument := by
  obtain ⟨hsucceeds, hsources, -, -, hbuild⟩ := discover_buildFiles wellFormed_library
  refine ⟨?_, ?_, fun fault => hbuild {} "." fault⟩
  · have hfolder := Gives.folder node?_library (lists_walk wellFormed_library node?_library)
    rw [walk_libraryEntries] at hfolder
    have hfile : Gives library "../b.thrift" _ := .file rfl ⟨"b", by decide, by decide⟩
    exact (hsources _ _).2 ⟨by simp, _, .cons hfolder (.cons hfile .nil), rfl⟩
  · rw [hsucceeds]
    rintro ⟨hinputs, -⟩
    rcases hinputs "xthrift" (by simp) with ⟨entries, hfolder⟩ | ⟨content, -, hname⟩
    · cases hfolder
    · exact absurd ((isSource_iff _).2 hname) (by decide)

end Source

end ThriftIdl

import ThriftIdl.Proofs.Paths
import ThriftIdl.Proofs.Steps
import ThriftIdl.Source

/-!
The sources that inputs give. A folder gives the files below it that have the extension of
documents, in the order of a walk, and a file that has it gives itself; one other input fails the
search, and so does no source at all.
-/

namespace ThriftIdl.Source

/-- A document's file can have the name: the extension of documents with something before it. -/
def Named (name : String) : Prop := ∃ stem, stem ≠ "" ∧ name = stem ++ ".thrift"

theorem isSource_iff (name : String) : isSource name = true ↔ Named name := by
  have hdotless : '.' ∉ sourceExtension.toList := by decide
  have htext : ∀ stem : String, stem ++ "." ++ sourceExtension = stem ++ ".thrift" :=
    fun stem => String.append_assoc
  rw [isSource, beq_iff_eq, Path.extension?_eq_some_iff, and_iff_right hdotless]
  simp only [htext, Named]

variable {files : Files} {path : String} {inputs : List String} {sources : List Source}
  {entries : List (String × Tree)} {content : ByteArray}

/-- What an input gives: a folder the documents' files below it, each named by the names that lead
there, and a document's file itself, named by its own name. -/
inductive Gives (files : Files) (path : String) : List Source → Prop where
  | folder {entries : List (String × Tree)} {found : List Tree.Found}
      (leads : files.node? path = some (.folder entries))
      (lists : (Tree.folder entries).Lists Named found) :
      Gives files path (found.map (ofFound path))
  | file {content : ByteArray} (leads : files.node? path = some (.file content))
      (named : Named (Path.fileName path)) :
      Gives files path [⟨Path.fileName path, path, content⟩]

theorem wellFormed_of_node? (hfiles : files.root.WellFormed) {node : Tree}
    (h : files.node? path = some node) : node.WellFormed := by
  obtain ⟨place, -, hnode⟩ := Files.exists_place_of_node? h
  exact (hfiles.of_at? hnode).1

theorem lists_walk (hfiles : files.root.WellFormed)
    (hfolder : files.node? path = some (.folder entries)) :
    (Tree.folder entries).Lists Named ((Tree.folder entries).walk.filter fun found =>
      (found.names.getLast?.map isSource).getD false) :=
  (wellFormed_of_node? hfiles hfolder).lists_walk isSource_iff

theorem ofInput_eq_ok_iff (hfiles : files.root.WellFormed) :
    ofInput files path = .ok sources ↔ Gives files path sources := by
  rw [ofInput]
  split
  · next entries hfolder =>
    constructor
    · intro h
      cases h
      exact .folder hfolder (lists_walk hfiles hfolder)
    · intro h
      cases h with
      | folder hleads hlists =>
        cases hfolder.symm.trans hleads
        rw [hlists.unique (lists_walk hfiles hfolder)]
        rfl
      | file hleads _ => cases hfolder.symm.trans hleads
  · next content hfile =>
    constructor
    · intro h
      dsimp only at h
      split at h
      · next hname =>
        cases h
        exact .file hfile ((isSource_iff _).1 hname)
      · cases h
    · intro h
      cases h with
      | folder hleads _ => cases hfile.symm.trans hleads
      | file hleads hname =>
        cases hfile.symm.trans hleads
        exact if_pos ((isSource_iff _).2 hname)
  · next hfolder hfile =>
    refine iff_of_false (by simp) ?_
    intro h
    cases h with
    | folder hleads _ => exact hfolder _ hleads
    | file hleads _ => exact hfile _ hleads

/-- The sources are what the inputs give, one after the other, and there must be one. -/
theorem discover_eq_ok_iff (hfiles : files.root.WellFormed) :
    discover files inputs = .ok sources ↔
      sources ≠ [] ∧
        ∃ given, List.Forall₂ (Gives files) inputs given ∧ sources = given.flatten := by
  simp only [discover, Steps.bind_eq_ok, Steps.mapM_eq_ok_iff, ofInput_eq_ok_iff hfiles]
  constructor
  · rintro ⟨given, hgiven, h⟩
    split at h
    · cases h
    · next first rest hfirst =>
      cases h
      exact ⟨by simp, given, hgiven, hfirst.symm⟩
  · rintro ⟨hne, given, hgiven, rfl⟩
    refine ⟨given, hgiven, ?_⟩
    split
    · next hnil => exact absurd hnil hne
    · next first rest hfirst => rw [hfirst]

/-- The input is a folder or a document's file. -/
def IsInput (files : Files) (path : String) : Prop :=
  (∃ entries, files.node? path = some (.folder entries)) ∨
    ∃ content, files.node? path = some (.file content) ∧ Named (Path.fileName path)

/-- The input is a document's file, or a folder with one below. -/
def Reaches (files : Files) (path : String) : Prop :=
  (∃ content, files.node? path = some (.file content) ∧ Named (Path.fileName path)) ∨
    ∃ entries names content, files.node? path = some (.folder entries) ∧
      (Tree.folder entries).at? names = some (.file content) ∧ ∃ name ∈ names.getLast?, Named name

theorem exists_gives_iff (hfiles : files.root.WellFormed) :
    (∃ sources, Gives files path sources) ↔ IsInput files path := by
  constructor
  · rintro ⟨sources, h⟩
    cases h with
    | folder hleads _ => exact Or.inl ⟨_, hleads⟩
    | file hleads hname => exact Or.inr ⟨_, hleads, hname⟩
  · rintro (⟨entries, hfolder⟩ | ⟨content, hfile, hname⟩)
    · exact ⟨_, .folder hfolder (lists_walk hfiles hfolder)⟩
    · exact ⟨_, .file hfile hname⟩

theorem Gives.ne_nil_iff (h : Gives files path sources) : sources ≠ [] ↔ Reaches files path := by
  cases h with
  | @folder entries found hleads hlists =>
    rw [ne_eq, List.map_eq_nil_iff]
    constructor
    · intro hne
      obtain ⟨⟨names, content⟩, hfound⟩ := List.exists_mem_of_ne_nil _ hne
      obtain ⟨hnode, hname⟩ := (hlists.mem_iff names content).1 hfound
      exact Or.inr ⟨entries, names, content, hleads, hnode, hname⟩
    · rintro (⟨content, hfile, -⟩ | ⟨other, names, content, hother, hnode, hname⟩)
      · cases hleads.symm.trans hfile
      · cases hleads.symm.trans hother
        exact List.ne_nil_of_mem ((hlists.mem_iff names content).2 ⟨hnode, hname⟩)
  | @file content hleads hname => exact iff_of_true (by simp) (Or.inl ⟨content, hleads, hname⟩)

/-- A search succeeds exactly if every input is a folder or a document's file, and one of them is
such a file or has one below. -/
theorem exists_discover_iff (hfiles : files.root.WellFormed) :
    (∃ sources, discover files inputs = .ok sources) ↔
      (∀ path ∈ inputs, IsInput files path) ∧ ∃ path ∈ inputs, Reaches files path := by
  simp only [discover_eq_ok_iff hfiles, ← exists_gives_iff hfiles, ← Steps.exists_forall₂_iff]
  constructor
  · rintro ⟨_, hne, given, hgiven, rfl⟩
    refine ⟨⟨given, hgiven⟩, ?_⟩
    obtain ⟨sources, hsources, hnonempty⟩ : ∃ sources ∈ given, sources ≠ [] := by
      simpa using hne
    obtain ⟨path, hpath, hgives⟩ := Steps.exists_right_of_forall₂ hgiven.flip hsources
    exact ⟨path, hpath, hgives.ne_nil_iff.1 hnonempty⟩
  · rintro ⟨⟨given, hgiven⟩, path, hpath, hreaches⟩
    obtain ⟨sources, hsources, hgives⟩ := Steps.exists_right_of_forall₂ hgiven hpath
    refine ⟨given.flatten, ?_, given, hgiven, rfl⟩
    have hnonempty := hgives.ne_nil_iff.2 hreaches
    simpa using ⟨sources, hsources, hnonempty⟩

/-- Why an input gives nothing: a file lacks the extension, or there is neither file nor folder. -/
def refusal (files : Files) (path : String) : DiscoveryError :=
  match files.node? path with
  | some (.file _) => .wrongExtension path
  | _ => .notFound path

theorem ofInput_eq_error_iff {error : DiscoveryError} :
    ofInput files path = .error error ↔ ¬IsInput files path ∧ error = refusal files path := by
  rw [ofInput, IsInput, refusal]
  rcases hnode : files.node? path with _ | (content | entries | _)
  · simp [eq_comm]
  · by_cases hname : isSource (Path.fileName path) = true
    · simp [hname, (isSource_iff _).1 hname]
    · simp [hname, (isSource_iff _).not.1 hname, eq_comm]
  · simp
  · simp [eq_comm]

/-- A search fails on the first input that gives nothing, or if all of them together give no
source. -/
theorem discover_eq_error_iff (hfiles : files.root.WellFormed) {error : DiscoveryError} :
    discover files inputs = .error error ↔
      (∃ before path after, inputs = before ++ path :: after ∧
        (∀ other ∈ before, IsInput files other) ∧ ¬IsInput files path ∧
          error = refusal files path) ∨
      ((∀ path ∈ inputs, IsInput files path) ∧ (∀ path ∈ inputs, ¬Reaches files path) ∧
        error = .noSources) := by
  rw [discover, Steps.bind_eq_error]
  apply or_congr
  · simp only [Steps.mapM_eq_error_iff, ofInput_eq_ok_iff hfiles, exists_gives_iff hfiles,
      ofInput_eq_error_iff]
  · simp only [Steps.mapM_eq_ok_iff, ofInput_eq_ok_iff hfiles, ← exists_gives_iff hfiles,
      ← Steps.exists_forall₂_iff]
    constructor
    · rintro ⟨given, hgiven, h⟩
      split at h
      · next hnil =>
        cases h
        refine ⟨⟨given, hgiven⟩, ?_, rfl⟩
        intro path hpath hreaches
        obtain ⟨sources, hsources, hgives⟩ := Steps.exists_right_of_forall₂ hgiven hpath
        exact hgives.ne_nil_iff.2 hreaches (List.flatten_eq_nil_iff.1 hnil sources hsources)
      · cases h
    · rintro ⟨⟨given, hgiven⟩, hnone, rfl⟩
      refine ⟨given, hgiven, ?_⟩
      have hnil : given.flatten = [] := by
        rw [List.flatten_eq_nil_iff]
        intro sources hsources
        obtain ⟨path, hpath, hgives⟩ := Steps.exists_right_of_forall₂ hgiven.flip hsources
        by_contra hne
        exact hnone path hpath (hgives.ne_nil_iff.1 hne)
      rw [hnil]

/-- The names of what one input gives are apart. -/
theorem Gives.nodup_names (hfiles : files.root.WellFormed) (h : Gives files path sources) :
    (sources.map (·.name)).Nodup := by
  cases h with
  | @folder entries found hleads hlists =>
    have hsteps : ∀ file ∈ found, Path.steps ("/".intercalate file.names) = file.names := by
      rintro ⟨names, content⟩ hfound
      obtain ⟨hnode, -⟩ := (hlists.mem_iff names content).1 hfound
      have hnames := ((wellFormed_of_node? hfiles hleads).of_at? hnode).2
      apply Path.steps_intercalate fun name hname => (hnames name hname).1
      rintro rfl
      cases hnode
    rw [List.map_map]
    apply List.pairwise_map.2
    apply hlists.strict.imp_of_mem
    intro left right hleft hright hlt heq
    have hnames : Path.steps ("/".intercalate left.names) =
        Path.steps ("/".intercalate right.names) := congrArg Path.steps heq
    rw [hsteps left hleft, hsteps right hright] at hnames
    rw [hnames] at hlt
    exact List.lt_irrefl _ hlt
  | file _ _ => exact List.nodup_singleton _

/-- The path of a source leads to its content. -/
theorem Gives.content?_path (hfiles : files.root.WellFormed) (h : Gives files path sources) :
    ∀ source ∈ sources, files.content? source.path = some source.content := by
  cases h with
  | @folder entries found hleads hlists =>
    rw [List.forall_mem_map]
    rintro ⟨names, content⟩ hfound
    obtain ⟨hnode, -⟩ := (hlists.mem_iff names content).1 hfound
    have hnames := ((wellFormed_of_node? hfiles hleads).of_at? hnode).2
    rw [ofFound, Files.content?, Files.node?_join hleads hnames hnode]
  | file hleads _ =>
    rw [List.forall_mem_singleton, Files.content?, hleads]

end ThriftIdl.Source

import Mathlib.Data.List.Basic
import ThriftIdl.Files

/-!
Writing a file. What could be reached before can be reached after, and the path that was written
leads to the content, unless it is that of the device.
-/

namespace ThriftIdl

namespace Tree

variable {entries inner : List (String × Tree)} {tree node : Tree} {name : String}
  {place parent : List String}

theorem at?_folder_cons (entries : List (String × Tree)) (name : String) (rest : List String) :
    (folder entries).at? (name :: rest) = (Table.get? entries name).bind (·.at? rest) := rfl

theorem put_folder_cons (entries : List (String × Tree)) (name : String) (rest : List String)
    (node : Tree) : (folder entries).put (name :: rest) node =
      folder (Table.insert name
        (((Table.get? entries name).getD (folder [])).put rest node) entries) := rfl

/-- Only a folder has something below it. -/
theorem exists_entries_of_at?_cons {rest : List String}
    (h : tree.at? (name :: rest) = some node) :
    ∃ entries child, tree = folder entries ∧ Table.get? entries name = some child ∧
      child.at? rest = some node := by
  obtain ⟨child, hchild, hrest⟩ := Option.bind_eq_some_iff.1 h
  cases tree with
  | folder entries => exact ⟨entries, child, rfl, hchild, hrest⟩
  | file content => cases hchild
  | sink => cases hchild

/-- Whatever the tree was, the node stands where it was put. -/
theorem at?_put_self (tree : Tree) (place : List String) (node : Tree) :
    (tree.put place node).at? place = some node := by
  induction place generalizing tree with
  | nil => simp [put, at?]
  | cons name rest ih => simp [put, at?, child?, ih]

/-- A file that is put into a folder, where no folder is, is in the way of nothing: where something
stands in the tree, something of its sort stands afterwards. -/
theorem exists_at?_put_file (content : ByteArray)
    (hparent : tree.at? parent = some (folder entries))
    (hplace : ∀ inner, tree.at? (parent ++ [name]) ≠ some (folder inner))
    (hnode : tree.at? place = some node) :
    ∃ next, (tree.put (parent ++ [name]) (file content)).at? place = some next ∧
      next.isFolder = node.isFolder := by
  induction parent generalizing tree place with
  | nil =>
    cases hparent
    rw [List.nil_append] at hplace ⊢
    rw [put_folder_cons]
    cases place with
    | nil =>
      cases hnode
      exact ⟨_, rfl, rfl⟩
    | cons step rest =>
      by_cases hstep : step = name
      · subst hstep
        obtain ⟨_, child, ⟨⟩, hchild, hrest⟩ := exists_entries_of_at?_cons hnode
        have hleaf : ∀ inner, child ≠ folder inner := by
          rintro inner rfl
          exact hplace inner (by rw [at?_folder_cons, hchild]; rfl)
        cases rest with
        | nil =>
          cases hrest
          rw [at?_folder_cons, Table.get?_insert_self]
          refine ⟨_, rfl, ?_⟩
          cases node with
          | folder inner => exact absurd rfl (hleaf inner)
          | file content => rfl
          | sink => rfl
        | cons step rest =>
          obtain ⟨inner, _, hfolder, -, -⟩ := exists_entries_of_at?_cons hrest
          exact absurd hfolder (hleaf inner)
      · rw [at?_folder_cons, Table.get?_insert_of_ne _ _ hstep]
        exact ⟨node, hnode, rfl⟩
  | cons first parent ih =>
    obtain ⟨outer, child, rfl, hchild, hbelow⟩ := exists_entries_of_at?_cons hparent
    rw [List.cons_append] at hplace ⊢
    rw [put_folder_cons, hchild, Option.getD_some]
    cases place with
    | nil =>
      cases hnode
      exact ⟨_, rfl, rfl⟩
    | cons step rest =>
      by_cases hstep : step = first
      · subst hstep
        rw [at?_folder_cons, hchild] at hnode
        rw [at?_folder_cons, Table.get?_insert_self]
        apply ih hbelow _ hnode
        intro inner
        have hnone := hplace inner
        rwa [at?_folder_cons, hchild] at hnone
      · rw [at?_folder_cons, Table.get?_insert_of_ne _ _ hstep]
        exact ⟨node, hnode, rfl⟩

end Tree

namespace Files

variable {files later : Files} {path : String} {place : List String} {content : ByteArray}

/-- Where something stands in the one, something of its sort stands in the other, and both work in
one folder. -/
structure KeptBy (files later : Files) : Prop where
  here_eq : later.here = files.here
  exists_at? : ∀ place node, files.root.at? place = some node →
    ∃ next, later.root.at? place = some next ∧ next.isFolder = node.isFolder

theorem keptBy_self (files : Files) : files.KeptBy files where
  here_eq := rfl
  exists_at? := fun _ node hnode => ⟨node, hnode, rfl⟩

theorem KeptBy.exists_folder (h : files.KeptBy later) {entries : List (String × Tree)}
    (hfolder : files.root.at? place = some (.folder entries)) :
    ∃ inner, later.root.at? place = some (.folder inner) := by
  obtain ⟨node, hnode, hkind⟩ := h.exists_at? place _ hfolder
  cases node with
  | folder inner => exact ⟨inner, hnode⟩
  | file content => cases hkind
  | sink => cases hkind

/-- A step that can be taken can be taken later. -/
theorem KeptBy.step? (h : files.KeptBy later) {start next : List String} {name : String}
    (hstep : files.step? start name = some next) : later.step? start name = some next := by
  rw [Files.step?] at hstep ⊢
  split at hstep
  · next entries hfolder =>
    obtain ⟨inner, hinner⟩ := h.exists_folder hfolder
    rw [hinner]
    dsimp only at hstep ⊢
    by_cases hstays : Path.stays name = true
    · rwa [if_pos hstays] at hstep ⊢
    · rw [if_neg hstays] at hstep ⊢
      by_cases hup : name = ".."
      · rwa [if_pos hup] at hstep ⊢
      · rw [if_neg hup] at hstep ⊢
        obtain ⟨hsome, hnext⟩ := Option.ite_none_right_eq_some.1 hstep
        obtain ⟨found, hfound⟩ := Option.isSome_iff_exists.1 hsome
        obtain ⟨other, hother, -⟩ := h.exists_at? _ found hfound
        rw [hother, Option.isSome_some, if_pos rfl]
        exact hnext
  · cases hstep

theorem KeptBy.foldlM_step? (h : files.KeptBy later) {names start last : List String}
    (hsteps : names.foldlM files.step? start = some last) :
    names.foldlM later.step? start = some last := by
  induction names generalizing start with
  | nil => exact hsteps
  | cons name names ih =>
    rw [List.foldlM_cons] at hsteps ⊢
    obtain ⟨next, hnext, hrest⟩ := Option.bind_eq_some_iff.1 hsteps
    exact Option.bind_eq_some_iff.2 ⟨next, h.step? hnext, ih hrest⟩

/-- The place of a file that a path names: the last step of the path leads there from a folder, and
no folder stands there. -/
structure Names (files : Files) (path : String) (names folder : List String) (name : String) :
    Prop where
  steps_eq : Path.steps path = names ++ [name]
  moves : Path.stays name = false ∧ name ≠ ".."
  leads : names.foldlM files.step? (files.origin path) = some folder
  exists_folder : ∃ entries, files.root.at? folder = some (.folder entries)
  free : ∀ inner, files.root.at? (folder ++ [name]) ≠ some (.folder inner)

theorem exists_names_of_target? (h : files.target? path = some place) :
    ∃ names folder name, files.Names path names folder name ∧ place = folder ++ [name] := by
  obtain ⟨name, hname, h⟩ := Option.bind_eq_some_iff.1 h
  by_cases hstays : Path.stays name ∨ name = ".."
  · rw [if_pos hstays] at h
    cases h
  · rw [if_neg hstays] at h
    obtain ⟨folder, hfolder, h⟩ := Option.bind_eq_some_iff.1 h
    rw [not_or, Bool.not_eq_true] at hstays
    refine ⟨(Path.steps path).dropLast, folder, name, ?_, ?_⟩
    · constructor
      · exact (List.dropLast_append_getLast? name hname).symm
      · exact hstays
      · exact hfolder
      · split at h
        · cases h
        · next entries hentries _ => exact ⟨entries, hentries⟩
        · cases h
      · intro inner hinner
        split at h
        · cases h
        · next hnone => exact hnone inner hinner
        · cases h
    · split at h
      · cases h
      · exact (Option.some.inj h).symm
      · cases h

/-- A path that names a file leads to it once something stands there. -/
theorem Names.locate?_eq {names folder : List String} {name : String}
    (h : files.Names path names folder name) (hkept : files.KeptBy later)
    (hsome : (later.root.at? (folder ++ [name])).isSome) :
    later.locate? path = some (folder ++ [name]) := by
  have hne : path ≠ "" := by
    rintro rfl
    have hsteps : [""] = names ++ [name] := h.steps_eq
    have hname := congrArg List.getLast? hsteps
    rw [List.getLast?_concat, List.getLast?_singleton, Option.some.injEq] at hname
    have hstays : Path.stays name = true := by rw [← hname]; decide
    rw [h.moves.1] at hstays
    cases hstays
  have hleads := hkept.foldlM_step? h.leads
  have horigin : later.origin path = files.origin path := by
    rw [origin, origin, hkept.here_eq]
  have hlast : later.step? folder name = some (folder ++ [name]) := by
    obtain ⟨entries, hfolder⟩ := h.exists_folder
    obtain ⟨inner, hinner⟩ := hkept.exists_folder hfolder
    simp only [step?, hinner]
    rw [if_neg (by simp [h.moves.1]), if_neg h.moves.2, if_pos hsome]
  rw [locate?, if_neg hne, h.steps_eq, horigin, List.foldlM_append, hleads]
  exact Option.bind_eq_some_iff.2 ⟨folder, rfl, Option.bind_eq_some_iff.2 ⟨_, hlast, rfl⟩⟩

theorem keptBy_writeAt {names folder : List String} {name : String}
    (h : files.Names path names folder name) (content : ByteArray) :
    files.KeptBy (files.writeAt (folder ++ [name]) content) := by
  obtain ⟨entries, hfolder⟩ := h.exists_folder
  rw [writeAt]
  split
  · exact keptBy_self files
  · constructor
    · rfl
    · intro place node hnode
      exact Tree.exists_at?_put_file content hfolder h.free hnode

/-- A file that was written holds what was written to it, but the device holds nothing. -/
theorem content?_of_write? (h : files.write? path content = some later)
    (hfile : files.node? path ≠ some .sink) : later.content? path = some content := by
  obtain ⟨place, hplace, rfl⟩ := Option.map_eq_some_iff.1 h
  obtain ⟨names, folder, name, hnames, rfl⟩ := exists_names_of_target? hplace
  have hwritten : (files.writeAt (folder ++ [name]) content).root.at? (folder ++ [name]) =
      some (.file content) := by
    rw [writeAt]
    split
    · next hsink =>
      have hlocate := hnames.locate?_eq (keptBy_self files) (by rw [hsink]; rfl)
      rw [node?, hlocate, Option.bind_some] at hfile
      exact absurd hsink hfile
    · exact Tree.at?_put_self files.root _ _
  have hlocate := hnames.locate?_eq (keptBy_writeAt hnames content) (by rw [hwritten]; rfl)
  rw [Files.content?, node?, hlocate, Option.bind_some, hwritten]

end Files

end ThriftIdl

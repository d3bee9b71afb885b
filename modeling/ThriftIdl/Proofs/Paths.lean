import ThriftIdl.Proofs.Document.Stems
import ThriftIdl.Proofs.Walk

/-!
Where paths lead. A path that is made longer by the names of entries leads to what stands below, and
a file is the last step of every path to it.
-/

namespace ThriftIdl

namespace Path

theorem extension?_of_last_dot {name : String} {before after : List Char} (hafter : '.' ∉ after)
    (hname : name.toList = before ++ '.' :: after) :
    extension? name = if before = [] then none else some (String.ofList after) := by
  rw [extension?, hname, DocumentName.dropWhile_append_dot hafter,
    DocumentName.takeWhile_append_dot hafter, List.reverse_reverse]
  rcases List.eq_nil_or_concat before with rfl | ⟨front, last, rfl⟩
  · rfl
  · rw [List.concat_eq_append, List.reverse_append, if_neg (by simp)]
    rfl

/-- The extension is what follows the last dot, and something stands before the dot. -/
theorem extension?_eq_some_iff {name extension : String} :
    extension? name = some extension ↔
      '.' ∉ extension.toList ∧ ∃ stem, stem ≠ "" ∧ name = stem ++ "." ++ extension := by
  have htext : ∀ stem : String,
      (stem ++ "." ++ extension).toList = stem.toList ++ '.' :: extension.toList := by
    intro stem
    rw [String.toList_append, String.toList_append, List.append_assoc]
    rfl
  constructor
  · intro h
    rcases DocumentName.last_dot_cases name.toList with hdot | ⟨before, after, hname, hafter⟩
    · rw [extension?, List.dropWhile_eq_nil_iff.2 (DocumentName.ne_dot_of_not_mem hdot)] at h
      cases h
    · rw [extension?_of_last_dot hafter hname] at h
      obtain ⟨hbefore, hextension⟩ := Option.ite_none_left_eq_some.1 h
      cases hextension
      refine ⟨by rwa [String.toList_ofList], String.ofList before, ?_, ?_⟩
      · rwa [ne_eq, ← String.toList_eq_nil_iff, String.toList_ofList]
      · rw [← String.toList_inj, htext, String.toList_ofList, String.toList_ofList, hname]
  · rintro ⟨hextension, stem, hstem, rfl⟩
    rw [extension?_of_last_dot hextension (htext stem), String.ofList_toList, if_neg]
    rwa [String.toList_eq_nil_iff]

theorem steps_append (folder inner : String) :
    steps (folder ++ "/" ++ inner) = steps folder ++ steps inner := by
  have hname : (folder ++ "/" ++ inner).toList = folder.toList ++ '/' :: inner.toList := by
    rw [String.toList_append, String.toList_append, List.append_assoc]
    rfl
  rw [steps, hname, List.splitOn_append_cons_self, List.map_append, steps, steps]

theorem steps_intercalate {names : List String} (hnames : ∀ name ∈ names, '/' ∉ name.toList)
    (hne : names ≠ []) : steps ("/".intercalate names) = names := by
  have hfree : ∀ text ∈ names.map String.toList, '/' ∉ text := by simpa using hnames
  have hsteps : ("/".intercalate names).toList.splitOn '/' = names.map String.toList := by
    rw [String.toList_intercalate]
    exact List.splitOn_intercalate '/' hfree (by simpa using hne)
  rw [steps, hsteps, List.map_map]
  simp

end Path

theorem Tree.at?_append (tree : Tree) (place rest : List String) :
    tree.at? (place ++ rest) = (tree.at? place).bind (·.at? rest) := by
  induction place generalizing tree with
  | nil => rfl
  | cons name place ih =>
    rw [List.cons_append, at?, at?, Option.bind_assoc]
    congr 1
    funext child
    exact ih child

/-- A folder stands in a folder, or it is the whole tree. -/
theorem Tree.exists_folder_dropLast {tree : Tree} {place : List String}
    {entries : List (String × Tree)} (h : tree.at? place = some (.folder entries)) :
    ∃ outer, tree.at? place.dropLast = some (.folder outer) := by
  rcases List.eq_nil_or_concat place with rfl | ⟨parent, name, rfl⟩
  · exact ⟨entries, h⟩
  · rw [List.concat_eq_append, at?_append] at h
    obtain ⟨node, hnode, hname⟩ := Option.bind_eq_some_iff.1 h
    obtain ⟨outer, child, rfl, -, -⟩ := exists_entries_of_at?_cons hname
    rw [List.concat_eq_append, List.dropLast_concat]
    exact ⟨outer, hnode⟩

namespace Files

variable {files : Files} {path : String} {place names : List String} {node found : Tree}
  {entries : List (String × Tree)} {content : ByteArray}

theorem exists_place_of_node? (h : files.node? path = some node) :
    ∃ place, files.locate? path = some place ∧ files.root.at? place = some node :=
  Option.bind_eq_some_iff.1 h

theorem locate?_eq_some_iff :
    files.locate? path = some place ↔
      path ≠ "" ∧ (Path.steps path).foldlM files.step? (files.origin path) = some place := by
  rw [locate?]
  split
  · next h => simp [h]
  · next h => simp [h]

/-- Names of entries lead to what stands below. -/
theorem foldlM_step?_names (hnode : files.root.at? place = some node)
    (hnames : ∀ name ∈ names, Tree.IsName name) (hfound : node.at? names = some found) :
    names.foldlM files.step? place = some (place ++ names) := by
  induction names generalizing place node with
  | nil => rw [List.foldlM_nil, List.append_nil, Option.pure_def]
  | cons name names ih =>
    rw [List.forall_mem_cons] at hnames
    obtain ⟨entries, child, rfl, hchild, hrest⟩ := Tree.exists_entries_of_at?_cons hfound
    have hnext : files.root.at? (place ++ [name]) = some child := by
      rw [Tree.at?_append, hnode, Option.bind_some, Tree.at?_folder_cons, hchild]
      rfl
    have hstep : files.step? place name = some (place ++ [name]) := by
      simp only [step?, hnode]
      rw [if_neg (by simp [hnames.1.2.1]), if_neg hnames.1.2.2, hnext,
        if_pos Option.isSome_some]
    rw [List.foldlM_cons, hstep, List.append_cons place name names]
    exact ih hnext hnames.2 hrest

/-- The steps of a path below a folder are those of a path to the folder, and the names that lead on
from there. -/
theorem steps_join (hpath : (Path.steps path).foldlM files.step? (files.origin path) = some place)
    (inner : String) :
    ∃ lead, Path.steps (Path.join path inner) = lead ++ Path.steps inner ∧
      lead.foldlM files.step? (files.origin path) = some place := by
  rw [Path.join]
  split
  · next hlast =>
    obtain ⟨front, rfl⟩ : ∃ front : String, path = front ++ "/" := by
      refine ⟨String.ofList path.toList.dropLast, ?_⟩
      rw [← String.toList_inj, String.toList_append, String.toList_ofList]
      exact (List.dropLast_append_getLast? _ hlast).symm
    have hsteps : Path.steps (front ++ "/") = Path.steps front ++ [""] := by
      have h := Path.steps_append front ""
      rwa [String.append_empty] at h
    rw [hsteps, List.foldlM_append] at hpath
    obtain ⟨before, hbefore, hstays⟩ := Option.bind_eq_some_iff.1 hpath
    -- The last step of the path stays in the folder, and is not taken on the longer path.
    obtain rfl : before = place := by
      rw [List.foldlM_cons] at hstays
      obtain ⟨next, hnext, hnil⟩ := Option.bind_eq_some_iff.1 hstays
      cases hnil
      rw [step?] at hnext
      split at hnext
      · exact Option.some.inj hnext
      · cases hnext
    exact ⟨Path.steps front, Path.steps_append front inner, hbefore⟩
  · exact ⟨Path.steps path, Path.steps_append path inner, hpath⟩

theorem origin_append (hne : path ≠ "") (rest : String) :
    files.origin (path ++ rest) = files.origin path := by
  have hlist : path.toList ≠ [] := by rwa [ne_eq, String.toList_eq_nil_iff]
  rw [origin, origin, String.toList_append, List.head?_append_of_ne_nil _ hlist]

/-- A path that is made longer by names of entries leads to what stands there. -/
theorem node?_join (hfolder : files.node? path = some (.folder entries))
    (hnames : ∀ name ∈ names, Tree.IsName name)
    (hfound : (Tree.folder entries).at? names = some (.file content)) :
    files.node? (Path.join path ("/".intercalate names)) = some (.file content) := by
  obtain ⟨place, hplace, hnode⟩ := exists_place_of_node? hfolder
  obtain ⟨hne, hsteps⟩ := locate?_eq_some_iff.1 hplace
  have hnil : names ≠ [] := by
    rintro rfl
    cases hfound
  obtain ⟨lead, hlead, hstart⟩ := steps_join hsteps ("/".intercalate names)
  rw [Path.steps_intercalate (fun name hname => (hnames name hname).1) hnil] at hlead
  obtain ⟨rest, hrest⟩ : ∃ rest, Path.join path ("/".intercalate names) = path ++ rest := by
    rw [Path.join]
    split
    · exact ⟨_, rfl⟩
    · exact ⟨_, String.append_assoc⟩
  have hlocate : files.locate? (Path.join path ("/".intercalate names)) =
      some (place ++ names) := by
    rw [locate?_eq_some_iff, hlead, hrest, origin_append hne, List.foldlM_append, hstart]
    exact ⟨by simp [hne], foldlM_step?_names hnode hnames hfound⟩
  rw [node?, hlocate, Option.bind_some, Tree.at?_append, hnode, Option.bind_some, hfound]

/-- A path leads to a file by the file's name. -/
theorem getLast?_of_locate? (hplace : files.locate? path = some place)
    (hfile : files.root.at? place = some (.file content)) :
    place.getLast? = some (Path.fileName path) := by
  obtain ⟨-, hsteps⟩ := locate?_eq_some_iff.1 hplace
  have hne : Path.steps path ≠ [] := by
    rw [Path.steps, ne_eq, List.map_eq_nil_iff]
    exact List.splitOn_ne_nil _ _
  obtain ⟨front, last, hsplit⟩ := (List.eq_nil_or_concat (Path.steps path)).resolve_left hne
  rw [List.concat_eq_append] at hsplit
  have hname : Path.fileName path = last := by
    rw [Path.fileName, hsplit, List.getLastD_concat]
  rw [hsplit, List.foldlM_append] at hsteps
  obtain ⟨folder, -, hlast⟩ := Option.bind_eq_some_iff.1 hsteps
  rw [List.foldlM_cons] at hlast
  obtain ⟨next, hnext, hnil⟩ := Option.bind_eq_some_iff.1 hlast
  cases hnil
  rw [step?] at hnext
  split at hnext
  · next entries hfolder =>
    split at hnext
    · cases hnext
      rw [hfolder] at hfile
      cases hfile
    · split at hnext
      · cases hnext
        obtain ⟨outer, houter⟩ := Tree.exists_folder_dropLast hfolder
        rw [houter] at hfile
        cases hfile
      · obtain ⟨-, hplace⟩ := Option.ite_none_right_eq_some.1 hnext
        cases hplace
        rw [List.getLast?_concat, hname]
  · cases hnext

end Files

end ThriftIdl

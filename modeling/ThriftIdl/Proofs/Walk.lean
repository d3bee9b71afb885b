import ThriftIdl.Proofs.Files
import ThriftIdl.Proofs.Sorting
import ThriftIdl.Proofs.Table

/-!
Walks through a tree. In a well-formed tree the names in each folder are apart, and each is a step
that leads somewhere. A walk then finds every file of the tree, each once, ordered by the lists of
names that lead there.
-/

namespace ThriftIdl.Tree

/-- An entry of a folder can have the name: it is one step of a path, and leads somewhere. -/
def IsName (name : String) : Prop :=
  '/' ∉ name.toList ∧ Path.stays name = false ∧ name ≠ ".."

instance : DecidablePred IsName := fun _ => inferInstanceAs (Decidable (_ ∧ _))

/-- In every folder the names are such that entries can have, and no two are the same. -/
inductive WellFormed : Tree → Prop where
  | file (content : ByteArray) : WellFormed (file content)
  | sink : WellFormed sink
  | folder {entries : List (String × Tree)} (nodup : (Table.keys entries).Nodup)
      (names : ∀ name ∈ Table.keys entries, IsName name)
      (below : ∀ entry ∈ entries, WellFormed entry.2) : WellFormed (folder entries)

variable {tree node : Tree} {place : List String}

theorem wellFormed_empty : (folder []).WellFormed :=
  .folder List.nodup_nil (by simp [Table.keys]) (by simp)

theorem WellFormed.insert {entries : List (String × Tree)} {name : String} {child : Tree}
    (h : (Tree.folder entries).WellFormed) (hname : IsName name) (hchild : child.WellFormed) :
    (Tree.folder (Table.insert name child entries)).WellFormed := by
  cases h with
  | folder hnodup hnames hbelow =>
    constructor
    · exact Table.nodup_keys_insert hnodup name child
    · intro other hother
      rcases Table.mem_keys_insert.1 hother with rfl | hother
      · exact hname
      · exact hnames other hother
    · intro entry hentry
      rcases Table.mem_insert hentry with rfl | hentry
      · exact hchild
      · exact hbelow entry hentry

theorem WellFormed.child {entries : List (String × Tree)} (h : (Tree.folder entries).WellFormed)
    {name : String} {child : Tree} (hchild : Table.get? entries name = some child) :
    IsName name ∧ child.WellFormed := by
  cases h with
  | folder hnodup hnames hbelow =>
    have hmem := (Table.get?_eq_some_iff_mem hnodup).1 hchild
    exact ⟨hnames name (List.mem_map_of_mem hmem), hbelow _ hmem⟩

/-- A tree stays well-formed when something well-formed is put in it. -/
theorem WellFormed.put (h : tree.WellFormed) (hplace : ∀ name ∈ place, IsName name)
    (hnode : node.WellFormed) : (tree.put place node).WellFormed := by
  induction place generalizing tree with
  | nil => exact hnode
  | cons name rest ih =>
    rw [List.forall_mem_cons] at hplace
    have hfolder : ∀ entries, (Tree.folder entries).WellFormed →
        ((Tree.folder entries).put (name :: rest) node).WellFormed := by
      intro entries hentries
      rw [put_folder_cons]
      apply hentries.insert hplace.1
      apply ih _ hplace.2
      cases hchild : Table.get? entries name with
      | none => exact wellFormed_empty
      | some child => exact (hentries.child hchild).2
    cases tree with
    | folder entries => exact hfolder entries h
    | file content => exact hfolder [] wellFormed_empty
    | sink => exact hfolder [] wellFormed_empty

/-- What stands in a well-formed tree is well-formed, and names of entries lead there. -/
theorem WellFormed.of_at? (h : tree.WellFormed) (hnode : tree.at? place = some node) :
    node.WellFormed ∧ ∀ name ∈ place, IsName name := by
  induction place generalizing tree with
  | nil =>
    cases hnode
    exact ⟨h, by simp⟩
  | cons name rest ih =>
    obtain ⟨entries, child, rfl, hchild, hrest⟩ := exists_entries_of_at?_cons hnode
    obtain ⟨hname, hbelow⟩ := h.child hchild
    obtain ⟨hnode, hnames⟩ := ih hbelow hrest
    exact ⟨hnode, List.forall_mem_cons.2 ⟨hname, hnames⟩⟩

theorem walkEntries_eq (entries : List (String × Tree)) :
    walkEntries entries = entries.map fun entry => (entry.1, entry.2.walk) := by
  induction entries with
  | nil => rw [walkEntries, List.map_nil]
  | cons entry entries ih => rw [walkEntries, List.map_cons, ih]

/-- A walk through a folder is one through its entries, in the order of their names. -/
theorem walk_folder (entries : List (String × Tree)) :
    (folder entries).walk =
      (entries.mergeSort fun left right => decide (left.1 ≤ right.1)).flatMap fun entry =>
        entry.2.walk.map fun found => { found with names := entry.1 :: found.names } := by
  rw [walk, walkEntries_eq, ← List.map_mergeSort, List.flatMap_map]
  intros
  rfl

/-- A walk finds exactly the files of the tree. -/
theorem WellFormed.mem_walk_iff (h : tree.WellFormed) {found : Found} :
    found ∈ tree.walk ↔ tree.at? found.names = some (.file found.content) := by
  induction h generalizing found with
  | file content =>
    obtain ⟨names, other⟩ := found
    rw [walk, List.mem_singleton, Found.mk.injEq]
    cases names with
    | nil => simp [at?, eq_comm]
    | cons name rest => simp [at?, child?]
  | sink =>
    obtain ⟨names, other⟩ := found
    rw [walk]
    cases names with
    | nil => simp [at?]
    | cons name rest => simp [at?, child?]
  | @folder entries hnodup hnames hbelow ih =>
    simp only [walk_folder, List.mem_flatMap, List.mem_mergeSort, List.mem_map]
    constructor
    · rintro ⟨⟨name, child⟩, hentry, inner, hinner, rfl⟩
      rw [at?_folder_cons, (Table.get?_eq_some_iff_mem hnodup).2 hentry]
      exact (ih _ hentry).1 hinner
    · intro hfound
      obtain ⟨names, content⟩ := found
      cases names with
      | nil => cases hfound
      | cons name rest =>
        rw [at?_folder_cons, Option.bind_eq_some_iff] at hfound
        obtain ⟨child, hchild, hrest⟩ := hfound
        have hentry := (Table.get?_eq_some_iff_mem hnodup).1 hchild
        exact ⟨_, hentry, ⟨rest, content⟩, (ih _ hentry).2 hrest, rfl⟩

/-- A walk finds every file after those whose names come first. -/
theorem WellFormed.walk_strict (h : tree.WellFormed) :
    tree.walk.Pairwise (·.names < ·.names) := by
  induction h with
  | file content =>
    rw [walk]
    exact List.pairwise_singleton _ _
  | sink =>
    rw [walk]
    exact List.Pairwise.nil
  | @folder entries hnodup hnames hbelow ih =>
    rw [walk_folder, List.pairwise_flatMap]
    constructor
    · intro entry hentry
      rw [List.pairwise_map]
      apply (ih entry (List.mem_mergeSort.1 hentry)).imp
      intro left right hlt
      exact List.cons_lt_cons_self.2 hlt
    · have hsorted := Target.mergeSort_sorted Prod.fst entries
      have hapart : (entries.mergeSort fun left right => decide (left.1 ≤ right.1)).Pairwise
          (·.1 ≠ ·.1) :=
        List.pairwise_map.1 (((List.mergeSort_perm entries _).map Prod.fst).nodup_iff.2 hnodup)
      apply hsorted.imp₂ _ hapart
      intro left right hle hne
      have hlt : left.1 < right.1 := Target.lt_of_le_of_ne hle hne
      simp only [List.forall_mem_map]
      exact fun _ _ _ _ => List.Lex.rel hlt

/-- The files of the tree with a name that is wanted, each once, in the order of the lists of names
that lead there: depth first, and what a folder holds in the order of its names. -/
structure Lists (tree : Tree) (wanted : String → Prop) (files : List Found) : Prop where
  mem_iff : ∀ names content, Found.mk names content ∈ files ↔
    tree.at? names = some (.file content) ∧ ∃ name ∈ names.getLast?, wanted name
  strict : files.Pairwise (·.names < ·.names)

theorem nodup_of_strict {files : List Found} (h : files.Pairwise (·.names < ·.names)) :
    files.Nodup := by
  apply h.imp
  rintro left _ hlt rfl
  exact List.lt_irrefl _ hlt

/-- There is one such list. -/
theorem Lists.unique {wanted : String → Prop} {left right : List Found}
    (hleft : tree.Lists wanted left) (hright : tree.Lists wanted right) : left = right := by
  have hmem : ∀ found, found ∈ left ↔ found ∈ right :=
    fun ⟨names, content⟩ => (hleft.mem_iff names content).trans (hright.mem_iff names content).symm
  have hperm := (List.perm_ext_iff_of_nodup (nodup_of_strict hleft.strict)
    (nodup_of_strict hright.strict)).2 hmem
  apply hperm.eq_of_pairwise _ hleft.strict hright.strict
  intro first second _ _ hlt hgt
  exact absurd hgt (List.lt_asymm hlt)

theorem WellFormed.lists_walk (h : tree.WellFormed) {wanted : String → Prop}
    {keeps : String → Bool} (hkeeps : ∀ name, keeps name = true ↔ wanted name) :
    tree.Lists wanted
      (tree.walk.filter fun found => (found.names.getLast?.map keeps).getD false) where
  mem_iff names content := by
    rw [List.mem_filter, h.mem_walk_iff]
    cases names.getLast? with
    | none => simp
    | some name => simp [hkeeps]
  strict := h.walk_strict.filter _

end ThriftIdl.Tree

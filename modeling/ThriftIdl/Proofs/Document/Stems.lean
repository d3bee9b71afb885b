import Mathlib.Data.List.TakeWhile
import ThriftIdl.Document

/-!
The namespace that a document has by its name. It is that of the folder, then that of the file, but
for a file whose only dot starts its name: in a folder the whole name is dropped like an extension,
and alone none of it is.
-/

namespace ThriftIdl.DocumentName

variable {name folder file before extension : List Char} {separator : Char}

/-- The name of a file with one dot, at its start. -/
def IsDotFile (file : List Char) : Prop := ∃ rest, file = '.' :: rest ∧ '.' ∉ rest

/-- The text with dots between the folders. -/
def dotted (text : String) : String :=
  String.ofList (text.toList.map fun c => if isSeparator c then '.' else c)

/-- A name has no dot or a last one. -/
theorem last_dot_cases (name : List Char) :
    '.' ∉ name ∨ ∃ before extension, name = before ++ '.' :: extension ∧ '.' ∉ extension := by
  by_cases h : '.' ∈ name
  · obtain ⟨extension, before, hname, hnew⟩ := List.eq_append_cons_of_mem (List.mem_reverse.2 h)
    refine Or.inr ⟨before.reverse, extension.reverse, ?_, by simpa using hnew⟩
    rw [← name.reverse_reverse, hname, List.reverse_append, List.reverse_cons, List.append_assoc,
      List.singleton_append]
  · exact Or.inl h

theorem ne_dot_of_not_mem (h : '.' ∉ extension) :
    ∀ c ∈ extension.reverse, (c != '.') = true := by
  intro c hc
  rw [bne_iff_ne]
  rintro rfl
  exact h (List.mem_reverse.1 hc)

/-- Nothing is dropped from a name without dots. -/
theorem stem_of_not_mem (h : '.' ∉ name) : stem name = name := by
  have hdrop : name.reverse.dropWhile (· != '.') = [] :=
    List.dropWhile_eq_nil_iff.2 (ne_dot_of_not_mem h)
  rw [stem, hdrop]

theorem reverse_append_dot (before extension : List Char) :
    (before ++ '.' :: extension).reverse = extension.reverse ++ '.' :: before.reverse := by
  rw [List.reverse_append, List.reverse_cons, List.append_assoc, List.singleton_append]

theorem dropWhile_append_dot (h : '.' ∉ extension) :
    (before ++ '.' :: extension).reverse.dropWhile (· != '.') = '.' :: before.reverse := by
  rw [reverse_append_dot, List.dropWhile_append_of_pos (ne_dot_of_not_mem h)]
  rfl

theorem takeWhile_append_dot (h : '.' ∉ extension) :
    (before ++ '.' :: extension).reverse.takeWhile (· != '.') = extension.reverse := by
  rw [reverse_append_dot, List.takeWhile_append_of_pos (ne_dot_of_not_mem h)]
  simp

/-- A name is cut at its last dot, unless nothing stands before it or a separator after it. -/
theorem stem_append_dot (h : '.' ∉ extension) :
    stem (before ++ '.' :: extension) =
      if before = [] ∨ extension.any isSeparator = true then before ++ '.' :: extension
      else before := by
  rw [stem, dropWhile_append_dot h, takeWhile_append_dot h]
  simp [List.isEmpty_iff]

/-- A file with one dot, at the start of its name, keeps the whole name where it stands alone. -/
theorem stem_of_isDotFile (h : IsDotFile file) : stem file = file := by
  obtain ⟨rest, rfl, hrest⟩ := h
  exact (stem_append_dot hrest).trans (if_pos (Or.inl rfl))

/-- A name with a separator after its last dot is left whole. -/
theorem stem_of_separator_after (hfile : '.' ∉ file) (hseparator : isSeparator separator = true) :
    stem (folder ++ separator :: file) = folder ++ separator :: file := by
  have hne : '.' ≠ separator := by
    rintro rfl
    cases hseparator
  rcases last_dot_cases folder with hfolder | ⟨before, rest, rfl, hrest⟩
  · apply stem_of_not_mem
    simp [hfolder, hfile, hne]
  · rw [List.append_assoc, List.cons_append, stem_append_dot, if_pos]
    · simp [hseparator]
    · simp [hrest, hfile, hne]

/-- The stem of a file's name in a folder. -/
theorem stem_append_separator (folder : List Char) (hseparator : isSeparator separator = true)
    (hfile : ∀ c ∈ file, isSeparator c = false) :
    (IsDotFile file → stem (folder ++ separator :: file) = folder ++ [separator]) ∧
      (¬IsDotFile file →
        stem (folder ++ separator :: file) = folder ++ separator :: stem file) := by
  rcases last_dot_cases file with hdot | ⟨before, extension, rfl, hdot⟩
  · constructor
    · rintro ⟨rest, rfl, -⟩
      exact absurd List.mem_cons_self hdot
    · intro _
      rw [stem_of_separator_after hdot hseparator, stem_of_not_mem hdot]
  · have hany : ¬extension.any isSeparator = true := by
      rw [List.any_eq_true]
      rintro ⟨c, hc, hcs⟩
      rw [hfile c (by simp [hc])] at hcs
      cases hcs
    have hwhole : stem (folder ++ separator :: (before ++ '.' :: extension)) =
        folder ++ separator :: before := by
      rw [← List.cons_append, ← List.append_assoc, stem_append_dot hdot, if_neg]
      simp [hany]
    rw [hwhole]
    constructor
    · rintro ⟨rest, hrest, hnew⟩
      cases before with
      | nil => rfl
      | cons first before =>
        cases hrest
        simp at hnew
    · intro hnot
      have hbefore : before ≠ [] := by
        rintro rfl
        exact hnot ⟨extension, rfl, hdot⟩
      rw [stem_append_dot hdot, if_neg (by simp [hbefore, hany])]

theorem namespaceName_eq (name : String) :
    namespaceName name = dotted (String.ofList (stem name.toList)) := by
  rw [namespaceName, dotted, String.toList_ofList]

theorem dotted_append (left right : String) :
    dotted (left ++ right) = dotted left ++ dotted right := by
  rw [dotted, String.toList_append, List.map_append, String.ofList_append, ← dotted, ← dotted]

/-- The namespace of a document in a folder is made up of the folder's name and the namespace that
the file's name gives, exactly if that name is not one dot and what follows it. Of such a file only
the folder is left. -/
theorem namespaceName_below {folder file : String} {separator : Char}
    (hseparator : isSeparator separator = true) (hfile : ∀ c ∈ file.toList, isSeparator c = false) :
    (namespaceName (folder ++ String.singleton separator ++ file) =
        dotted folder ++ "." ++ namespaceName file ↔ ¬IsDotFile file.toList) ∧
      (IsDotFile file.toList →
        namespaceName (folder ++ String.singleton separator ++ file) = dotted folder ++ ".") := by
  have hdot : dotted (String.ofList [separator]) = "." := by
    rw [dotted, String.toList_ofList, List.map_singleton, if_pos hseparator]
  have hname : (folder ++ String.singleton separator ++ file).toList =
      folder.toList ++ separator :: file.toList := by
    rw [String.toList_append, String.toList_append, String.toList_singleton, List.append_assoc,
      List.singleton_append]
  obtain ⟨hdropped, hkept⟩ := stem_append_separator folder.toList hseparator hfile
  have hbelow : IsDotFile file.toList →
      namespaceName (folder ++ String.singleton separator ++ file) = dotted folder ++ "." := by
    intro h
    rw [namespaceName_eq, hname, hdropped h, String.ofList_append, String.ofList_toList,
      dotted_append, ← hdot]
  refine ⟨⟨?_, ?_⟩, hbelow⟩
  · intro heq h
    rw [hbelow h, eq_comm, String.append_eq_left_iff, namespaceName_eq, stem_of_isDotFile h,
      String.ofList_toList] at heq
    obtain ⟨rest, hrest, -⟩ := h
    simp [dotted, hrest] at heq
  · intro h
    rw [namespaceName_eq, hname, hkept h, ← List.singleton_append, String.ofList_append,
      String.ofList_append, String.ofList_toList, dotted_append, dotted_append, ← namespaceName_eq,
      String.append_assoc, ← hdot]

/-- Dots in the folder do not matter, and of more dots in the file's name the last one counts. -/
theorem namespaceName_below_versions :
    namespaceName ("api.v2\\users" ++ String.singleton '/' ++ ".list.v1.thrift") =
        dotted "api.v2\\users" ++ "." ++ namespaceName ".list.v1.thrift" ∧
      namespaceName ("api.v2" ++ String.singleton '\\' ++ ".thrift") = dotted "api.v2" ++ "." := by
  constructor
  · apply (namespaceName_below (by decide) (by simp [isSeparator])).1.2
    rintro ⟨rest, hrest, hnew⟩
    cases hrest
    exact absurd hnew (by decide)
  · exact (namespaceName_below (by decide) (by simp [isSeparator])).2 ⟨_, rfl, by decide⟩

/-- A file with one dot, at the start of its name, does not keep its name in a folder. -/
theorem not_namespaceName_below : ¬∀ folder file : String, file ≠ "" →
    (∀ c ∈ file.toList, isSeparator c = false) →
      namespaceName (folder ++ "/" ++ file) = dotted folder ++ "." ++ namespaceName file := by
  intro h
  have hname := h "dir" ".thrift" (by decide) (by simp [isSeparator])
  have hdropped : namespaceName ("dir" ++ "/" ++ ".thrift") = "dir." := by decide +kernel
  rw [hdropped] at hname
  exact absurd hname (by decide +kernel)

end ThriftIdl.DocumentName

import ThriftIdl.Document.Reading
import ThriftIdl.Proofs.Table

/-!
Reading a document again. A document that was read has the namespaces its header set, so reading it
once more sets them to what they are and gives the same definitions and remarks.
-/

namespace ThriftIdl

namespace Header

/-- The namespaces that the directives at the start of the lines set, in order. -/
def settings : List Line → List (String × String)
  | [] => []
  | line :: rest =>
    match effect? (Text.fieldsOf line.text) with
    | none => []
    | some (.setNamespace target name) => (target, name) :: settings rest
    | some (.remark _) => settings rest

theorem read_namespaces (table : Table String) (lines : List Line) :
    (read table lines).namespaces =
      (settings lines).foldl (fun table pair => table.insert pair.1 pair.2) table := by
  induction lines generalizing table with
  | nil => rfl
  | cons line lines ih =>
    cases heffect : effect? (Text.fieldsOf line.text) with
    | none => simp only [read, settings, heffect, List.foldl_nil]
    | some effect =>
      cases effect with
      | setNamespace target name => simp only [read, settings, heffect, ih, List.foldl_cons]
      | remark remark => simp only [read, settings, heffect, ih]

/-- What a header remarks on and where it ends do not depend on the namespaces before it. -/
theorem read_notices_rest (left right : Table String) (lines : List Line) :
    (read left lines).notices = (read right lines).notices ∧
      (read left lines).rest = (read right lines).rest := by
  induction lines generalizing left right with
  | nil => exact ⟨rfl, rfl⟩
  | cons line lines ih =>
    cases heffect : effect? (Text.fieldsOf line.text) with
    | none => simp only [read, heffect, and_self]
    | some effect =>
      cases effect with
      | setNamespace target name =>
        simp only [read, heffect]
        exact ih _ _
      | remark remark =>
        simp only [read, heffect]
        exact ⟨congrArg _ (ih left right).1, (ih left right).2⟩

/-- On top of the namespaces it sets, a header sets the same namespaces. -/
theorem read_twice {table : Table String} (h : table.keys.Nodup) (lines : List Line) :
    read (read table lines).namespaces lines = read table lines := by
  have hnamespaces : (read (read table lines).namespaces lines).namespaces =
      (read table lines).namespaces := by
    rw [read_namespaces, read_namespaces, Table.foldl_insert_twice (settings lines) h]
  obtain ⟨hnotices, hrest⟩ := read_notices_rest (read table lines).namespaces table lines
  cases hsecond : read (read table lines).namespaces lines
  cases hfirst : read table lines
  simp_all

theorem nodup_keys_read {table : Table String} (h : table.keys.Nodup) (lines : List Line) :
    (read table lines).namespaces.keys.Nodup := by
  rw [read_namespaces]
  exact Table.nodup_keys_foldl_insert (settings lines) h

/-- The lines after a header are the last of all lines. -/
theorem read_rest_suffix (table : Table String) (lines : List Line) :
    (read table lines).rest <:+ lines := by
  induction lines generalizing table with
  | nil => exact List.suffix_refl []
  | cons line lines ih =>
    rw [read]
    split
    · exact List.suffix_refl (line :: lines)
    · exact (ih _).trans (List.suffix_cons line lines)
    · exact (ih table).trans (List.suffix_cons line lines)

end Header

namespace Document

theorem readDefinitions_eq_ok_iff {document : Document} {definitions : List Definition} :
    document.readDefinitions = .ok definitions ↔
      Grammar.readDefinitions [] document.header.rest = .ok definitions ∧ definitions ≠ [] := by
  rw [readDefinitions]
  cases Grammar.readDefinitions [] document.header.rest with
  | error violation => simp [bind, Except.bind]
  | ok found =>
    cases found with
    | nil => simp [bind, Except.bind, eq_comm]
    | cons definition found =>
      simp only [bind, Except.bind, List.isEmpty_cons, Bool.false_eq_true, if_false,
        Except.ok.injEq, iff_self_and]
      rintro rfl
      exact List.cons_ne_nil definition found

theorem read_eq_ok_iff {document result : Document} :
    document.read = .ok result ↔
      ∃ definitions, document.readDefinitions = .ok definitions ∧
        result = { document with
          namespaces := document.header.namespaces, definitions := definitions } := by
  rw [read]
  cases document.readDefinitions with
  | error violation => simp
  | ok definitions => simp [eq_comm]

theorem read_congr {left right : Document} (hname : left.name = right.name)
    (hlines : left.lines = right.lines) (hheader : left.header = right.header) :
    left.read = right.read ∧ left.warnings = right.warnings := by
  constructor
  · rw [read, read, readDefinitions, readDefinitions, hname, hlines, hheader]
  · simp only [warnings, place, hname, hlines, hheader]

theorem name_lines_of_read {document result : Document} (h : document.read = .ok result) :
    result.name = document.name ∧ result.lines = document.lines := by
  obtain ⟨definitions, -, rfl⟩ := read_eq_ok_iff.1 h
  exact ⟨rfl, rfl⟩

theorem header_of_read {document result : Document} (hkeys : document.namespaces.keys.Nodup)
    (h : document.read = .ok result) : result.header = document.header := by
  obtain ⟨definitions, -, rfl⟩ := read_eq_ok_iff.1 h
  exact Header.read_twice hkeys (Line.meaningful document.lines)

/-- A document that was read is read as it is, with the same remarks. -/
theorem read_of_read {document result : Document} (hkeys : document.namespaces.keys.Nodup)
    (h : document.read = .ok result) :
    result.read = .ok result ∧ result.warnings = document.warnings := by
  obtain ⟨hname, hlines⟩ := name_lines_of_read h
  obtain ⟨hread, hwarnings⟩ := read_congr hname hlines (header_of_read hkeys h)
  exact ⟨hread.trans h, hwarnings⟩

/-- The document has the text, before or after it was read. -/
def Version (name source : String) (document : Document) : Prop :=
  document = ofSource name source ∨ (ofSource name source).read = .ok document

theorem nodup_keys_ofSource (name source : String) :
    (ofSource name source).namespaces.keys.Nodup := by
  simp [ofSource, Table.keys]

theorem Version.name_eq {name source : String} {document : Document}
    (h : Version name source document) : document.name = name := by
  rcases h with rfl | h
  · rfl
  · exact (name_lines_of_read h).1

/-- Whether a document was read before makes no difference to reading it. -/
theorem Version.read_eq {name source : String} {document : Document}
    (h : Version name source document) :
    document.read = (ofSource name source).read ∧
      document.warnings = (ofSource name source).warnings := by
  rcases h with rfl | h
  · exact ⟨rfl, rfl⟩
  · obtain ⟨hread, hwarnings⟩ := read_of_read (nodup_keys_ofSource name source) h
    exact ⟨hread.trans h.symm, hwarnings⟩

end Document

end ThriftIdl

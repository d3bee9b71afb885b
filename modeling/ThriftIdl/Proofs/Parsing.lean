import ThriftIdl.Model
import ThriftIdl.Proofs.Document.Reading
import ThriftIdl.Proofs.Lookup
import ThriftIdl.Proofs.Resolution
import ThriftIdl.Proofs.Sorting
import ThriftIdl.Proofs.Steps

/-!
What parsing a model can do: all documents are read, or one cannot be; then they are merged, or
cannot be.
-/

namespace ThriftIdl.Model

theorem readAll_fst (documents : List Document) :
    (readAll documents).1 = documents.mapM Document.read := by
  induction documents with
  | nil => rfl
  | cons document documents ih =>
    rw [List.mapM_cons, readAll, ← ih]
    cases document.read with
    | error fault => rfl
    | ok first =>
      obtain ⟨result, warnings⟩ := readAll documents
      cases result with
      | error fault => rfl
      | ok rest => rfl

/-- The documents that are warned about: those up to and including the first that cannot be
read. -/
theorem readAll_snd (documents : List Document) :
    (readAll documents).2 =
      (Steps.attempted (·.read.isOk) documents).flatMap Document.warnings := by
  induction documents with
  | nil => rfl
  | cons document documents ih =>
    rw [readAll, Steps.attempted_cons]
    cases document.read with
    | error fault => simp [Except.isOk, Except.toBool]
    | ok first => simp [Except.isOk, Except.toBool, ih]

/-- In the order of their names, documents are read to the same as in any other order. -/
theorem exists_readAll_sorted {documents results : List Document}
    (h : documents.mapM Document.read = .ok results) :
    ∃ read, (readAll (Target.sortDocuments documents)).1 = .ok read ∧ read.Perm results := by
  obtain ⟨read, hread, hperm⟩ := Steps.mapM_of_perm (Target.sortDocuments_perm documents) h
  exact ⟨read, (readAll_fst _).trans hread, hperm⟩

theorem exists_mapM_of_sorted {documents read : List Document}
    (h : (readAll (Target.sortDocuments documents)).1 = .ok read) :
    ∃ results, documents.mapM Document.read = .ok results ∧ results.Perm read :=
  Steps.mapM_of_perm (Target.sortDocuments_perm documents).symm ((readAll_fst _).symm.trans h)

/-- Documents that are read to the same, with the same remarks, are read to the same together. -/
theorem readAll_congr {left right : List Document}
    (h : List.Forall₂ (fun first second => first.read = second.read ∧
      first.warnings = second.warnings) left right) : readAll left = readAll right := by
  induction h with
  | nil => rfl
  | cons hfirst _ ih => rw [readAll, readAll, hfirst.1, hfirst.2, ih]

theorem map_name_of_mapM_read {documents read : List Document}
    (h : documents.mapM Document.read = .ok read) :
    read.map (·.name) = documents.map (·.name) :=
  Steps.map_eq_of_mapM h fun _ _ hread => (Document.name_lines_of_read hread).1

/-- Each document is replaced by what it was read to. -/
theorem mapM_read_updated {documents read : List Document}
    (hnames : (documents.map (·.name)).Nodup)
    (h : (Target.sortDocuments documents).mapM Document.read = .ok read) :
    documents.mapM Document.read = .ok (documents.map (updated read)) := by
  rw [Steps.mapM_eq_ok_iff, List.forall₂_map_right_iff]
  apply List.forall₂_same.2
  intro document hdocument
  obtain ⟨result, hresult, hread⟩ := Steps.exists_mem_of_mapM h
    ((Target.sortDocuments_perm documents).mem_iff.2 hdocument)
  have hreadNames : (read.map (·.name)).Nodup := by
    rw [map_name_of_mapM_read h]
    exact ((Target.sortDocuments_perm documents).map _).nodup_iff.2 hnames
  have hname := (Document.name_lines_of_read hread).1
  have hfound : read.find? (·.name == document.name) = some result :=
    (Lookup.find?_eq_some_iff hreadNames).2 ⟨hresult, hname⟩
  rw [updated, hfound, hread, Option.getD_some]

/-- The warnings that parsing the model adds. -/
def appended (model : Model) : List Warning :=
  (readAll (Target.sortDocuments model.documents)).2

/-- How parsing ends once the documents are read: they are merged, or cannot be. -/
def merged (model : Model) (documents : List Document) : Except Fault Unit × Model :=
  match Target.resolve documents with
  | .error fault =>
    (.error fault, { model with
      documents := documents, warnings := model.warnings ++ model.appended })
  | .ok targets =>
    (.ok (), { model with
      documents := documents, targets := targets, parsed := true,
      warnings := model.warnings ++ model.appended })

theorem parse_of_fault {model : Model} (hparsed : model.parsed = false) {fault : Fault}
    (h : (readAll (Target.sortDocuments model.documents)).1 = .error fault) :
    model.parse = (.error fault, { model with warnings := model.warnings ++ model.appended }) := by
  rw [parse, if_neg (by simp [hparsed]), appended]
  rcases hall : readAll (Target.sortDocuments model.documents) with ⟨result, warnings⟩
  rw [hall] at h
  cases h
  rfl

theorem parse_of_read {model : Model} (hnames : (model.documents.map (·.name)).Nodup)
    (hparsed : model.parsed = false) {documents : List Document}
    (h : model.documents.mapM Document.read = .ok documents) :
    model.parse = model.merged documents := by
  obtain ⟨read, hsorted, -⟩ := exists_readAll_sorted h
  have hread := mapM_read_updated hnames ((readAll_fst _).symm.trans hsorted)
  rw [h] at hread
  cases hread
  rw [parse, if_neg (by simp [hparsed]), merged, appended]
  rcases hall : readAll (Target.sortDocuments model.documents) with ⟨result, warnings⟩
  rw [hall] at hsorted
  cases hsorted
  rfl

/-- The three ends of parsing a model that was not parsed: a document cannot be read and all stay
as they are; all are read but cannot be merged; they are merged. -/
theorem parse_cases {model : Model} (hnames : (model.documents.map (·.name)).Nodup)
    (hparsed : model.parsed = false) :
    (∃ fault, (readAll (Target.sortDocuments model.documents)).1 = .error fault ∧
      model.parse = (.error fault, { model with warnings := model.warnings ++ model.appended })) ∨
    ∃ documents, model.documents.mapM Document.read = .ok documents ∧
      ((∃ fault, Target.resolve documents = .error fault ∧
        model.parse = (.error fault, { model with
          documents := documents, warnings := model.warnings ++ model.appended })) ∨
      ∃ targets, Target.resolve documents = .ok targets ∧
        model.parse = (.ok (), { model with
          documents := documents, targets := targets, parsed := true,
          warnings := model.warnings ++ model.appended })) := by
  rcases hsorted : (readAll (Target.sortDocuments model.documents)).1 with fault | read
  · exact Or.inl ⟨fault, rfl, parse_of_fault hparsed hsorted⟩
  · have hread := mapM_read_updated hnames ((readAll_fst _).symm.trans hsorted)
    refine Or.inr ⟨_, hread, ?_⟩
    rw [parse_of_read hnames hparsed hread, merged]
    rcases Target.resolve (model.documents.map (updated read)) with fault | targets
    · exact Or.inl ⟨fault, rfl, rfl⟩
    · exact Or.inr ⟨targets, rfl, rfl⟩

/-- However parsing ends, the warnings on the documents it reads are kept. -/
theorem warnings_parse {model : Model} (hparsed : model.parsed = false) :
    model.parse.2.warnings = model.warnings ++ model.appended := by
  rw [parse, if_neg (by simp [hparsed]), appended]
  rcases readAll (Target.sortDocuments model.documents) with ⟨fault | read, warnings⟩
  · rfl
  · dsimp only
    split
    · rfl
    · rfl

theorem parse_of_parsed {model : Model} (h : model.parsed = true) :
    model.parse = (.error {
      category := .alreadyParsed
      message := .ok "the model has already been parsed" }, model) := by
  rw [parse, if_pos h]

/-- A parse that reads all documents and cannot merge them leaves the model with the documents as
read. -/
theorem parse_of_unmerged {model : Model} (hnames : (model.documents.map (·.name)).Nodup)
    (hparsed : model.parsed = false) {documents : List Document}
    (hread : model.documents.mapM Document.read = .ok documents)
    (hunmerged : ¬∃ targets, Target.resolve documents = .ok targets) :
    ∃ fault, model.parse = (.error fault, { model with
      documents := documents, warnings := model.warnings ++ model.appended }) := by
  rw [parse_of_read hnames hparsed hread, merged]
  rcases hresolve : Target.resolve documents with fault | targets
  · exact ⟨fault, rfl⟩
  · exact absurd ⟨targets, hresolve⟩ hunmerged

/-- Two documents that share a namespace for one target and declare one name in it. -/
def clashTexts : List (String × String) := [
  ("a.thrift", "namespace go shared\nconst i32 X = 1"),
  ("b.thrift", "namespace go shared\nconst i64 X = 2")]

/-- The model of the two documents, not parsed yet. -/
def clash : Model where
  documents := clashTexts.map fun text => .ofSource text.1 text.2

/-- The documents of the clash as they are read. -/
def clashRead : List Document := [
  { name := "a.thrift", lines := ["namespace go shared", "const i32 X = 1"],
    namespaces := [("default", "a"), ("go", "shared")],
    definitions := [⟨⟨"X", 1⟩, .const "i32" "1"⟩] },
  { name := "b.thrift", lines := ["namespace go shared", "const i64 X = 2"],
    namespaces := [("default", "b"), ("go", "shared")],
    definitions := [⟨⟨"X", 1⟩, .const "i64" "2"⟩] }]

theorem mapM_read_clash : clash.documents.mapM Document.read = .ok clashRead := by
  decide +kernel

theorem clashRead_unmerged : ¬∃ targets, Target.resolve clashRead = .ok targets := by
  intro hmerged
  rw [Target.exists_resolve_iff (by decide) (by decide) (by decide)] at hmerged
  have hcompatible := hmerged "go" (by decide)
  revert hcompatible
  decide

/-- The clash is not parsed, and has its documents as read. -/
theorem parse_clash : ∃ fault, clash.parse =
    (.error fault, { clash with documents := clashRead, warnings := clash.appended }) :=
  parse_of_unmerged (by decide) rfl mapM_read_clash clashRead_unmerged

end ThriftIdl.Model

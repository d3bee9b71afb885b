import ThriftIdl.Proofs.Model.Recovery

/-!
Calls that fail. A call that fails leaves targets and the mark of parsing as they are, and all
documents too, unless it parses documents that can be read and reading changes one of them.
-/

namespace ThriftIdl.Model

/-- The models that come up: the empty one, those that bytes write, and what calls make of
them. -/
inductive Reachable : Model → Prop
  | empty : Reachable empty
  | decoded {bytes : ByteArray} {model : Model} (h : decode bytes = .ok model) : Reachable model
  | step {model : Model} (h : Reachable model) (call : Call) : Reachable (model.step call).2

theorem Reachable.run {model : Model} (h : Reachable model) (calls : List Call) :
    Reachable (model.run calls) := by
  induction calls generalizing model with
  | nil => exact h
  | cons call calls ih => exact ih (h.step call)

/-- What a call can do to the documents: nothing, or it adds one of a new name, or reads all. -/
theorem documents_step {model : Model} (h : (model.documents.map (·.name)).Nodup) (call : Call) :
    (model.step call).2.documents = model.documents ∨
    (∃ name source, name ∉ model.documents.map (·.name) ∧
      (model.step call).2.documents = model.documents ++ [.ofSource name source]) ∨
    model.documents.mapM Document.read = .ok (model.step call).2.documents := by
  by_cases hcall : call = .parse
  · subst hcall
    change model.parse.2.documents = _ ∨ _ ∨
      model.documents.mapM Document.read = .ok model.parse.2.documents
    by_cases hparsed : model.parsed = true
    · rw [parse_of_parsed hparsed]
      exact Or.inl rfl
    · rw [Bool.not_eq_true] at hparsed
      rcases parse_cases h hparsed with
        ⟨fault, -, hparse⟩ | ⟨documents, hread, ⟨fault, -, hparse⟩ | ⟨targets, -, hparse⟩⟩
      · rw [hparse]
        exact Or.inl rfl
      · rw [hparse]
        exact Or.inr (Or.inr hread)
      · rw [hparse]
        exact Or.inr (Or.inr hread)
  · rcases step_cases model hcall with
      ⟨name, source, -, -, hname, hstep⟩ | ⟨error, hstep⟩ | ⟨-, warnings, hstep⟩
    · rw [hstep]
      exact Or.inr (Or.inl ⟨name, source, hname, rfl⟩)
    · rw [hstep]
      exact Or.inl rfl
    · rw [hstep]
      exact Or.inl rfl

theorem nodup_names_step {model : Model} (h : (model.documents.map (·.name)).Nodup)
    (call : Call) : ((model.step call).2.documents.map (·.name)).Nodup := by
  rcases documents_step h call with hstep | ⟨name, source, hname, hstep⟩ | hread
  · rw [hstep]
    exact h
  · rw [hstep, List.map_append]
    exact Lookup.nodup_append_singleton.2 ⟨h, hname⟩
  · rw [map_name_of_mapM_read hread]
    exact h

theorem Reachable.nodup_names {model : Model} (h : Reachable model) :
    (model.documents.map (·.name)).Nodup := by
  induction h with
  | empty => exact List.nodup_nil
  | decoded h => exact (portable_of_decode h).nodup_documents
  | step _ call ih => exact nodup_names_step ih call

/-- The call parses documents that can all be read. -/
def Reads (model : Model) (call : Call) : Prop :=
  call = .parse ∧ model.parsed = false ∧
    ∀ document ∈ model.documents, ∃ result, document.read = .ok result

/-- The call parses documents that can all be read, and one is not as reading it leaves it. -/
def ReadsAnew (model : Model) (call : Call) : Prop :=
  model.Reads call ∧ ∃ document ∈ model.documents, document.read ≠ .ok document

/-- What a call that fails does: if it parses documents that can all be read they are left as
read, and otherwise all stay as they are. -/
theorem failed_step_cases {model : Model} (hnames : (model.documents.map (·.name)).Nodup)
    {call : Call} {error : AddError} (hfailed : (model.step call).1 = .error error) :
    (¬model.Reads call ∧ ∃ warnings, (model.step call).2 = { model with warnings := warnings }) ∨
    (model.Reads call ∧ ∃ documents warnings, model.documents.mapM Document.read = .ok documents ∧
      (model.step call).2 = { model with documents := documents, warnings := warnings }) := by
  by_cases hcall : call = .parse
  · subst hcall
    by_cases hparsed : model.parsed = true
    · refine Or.inl ⟨fun hreads => ?_, model.warnings, ?_⟩
      · rw [hreads.2.1] at hparsed
        cases hparsed
      · rw [step, parse_of_parsed hparsed]
    · rw [Bool.not_eq_true] at hparsed
      rcases parse_cases hnames hparsed with
        ⟨fault, hfault, hparse⟩ | ⟨documents, hread, ⟨fault, -, hparse⟩ | ⟨targets, -, hparse⟩⟩
      · refine Or.inl ⟨fun hreads => ?_, _, by rw [step, hparse]⟩
        obtain ⟨documents, hread⟩ := Steps.exists_mapM_eq_ok_iff.2 hreads.2.2
        obtain ⟨sorted, hsorted, -⟩ := exists_readAll_sorted hread
        rw [hfault] at hsorted
        cases hsorted
      · have hreads := Steps.exists_mapM_eq_ok_iff.1 ⟨documents, hread⟩
        exact Or.inr ⟨⟨rfl, hparsed, hreads⟩, documents, _, hread, by rw [step, hparse]⟩
      · rw [step, hparse] at hfailed
        cases hfailed
  · have hreads : ¬model.Reads call := fun hreads => hcall hreads.1
    refine Or.inl ⟨hreads, ?_⟩
    rcases step_cases model hcall with
      ⟨name, source, -, -, -, hstep⟩ | ⟨other, hstep⟩ | ⟨-, warnings, hstep⟩
    · rw [hstep] at hfailed
      cases hfailed
    · exact ⟨model.warnings, by rw [hstep]⟩
    · rw [hstep] at hfailed
      cases hfailed

theorem mapM_read_self_iff {documents : List Document} :
    documents.mapM Document.read = .ok documents ↔
      ∀ document ∈ documents, document.read = .ok document := by
  rw [Steps.mapM_eq_ok_iff, List.forall₂_same]

theorem documents_eq_of_failed_iff {model : Model} (hnames : (model.documents.map (·.name)).Nodup)
    {call : Call} {error : AddError} (hfailed : (model.step call).1 = .error error) :
    (model.step call).2.documents = model.documents ↔ ¬model.ReadsAnew call := by
  rcases failed_step_cases hnames hfailed with
    ⟨hreads, warnings, hstep⟩ | ⟨hreads, documents, warnings, hread, hstep⟩
  · rw [hstep]
    exact iff_of_true rfl fun hanew => hreads hanew.1
  · rw [hstep]
    constructor
    · intro heq hanew
      obtain ⟨document, hdocument, hchanged⟩ := hanew.2
      change documents = model.documents at heq
      rw [heq] at hread
      exact hchanged (mapM_read_self_iff.1 hread document hdocument)
    · intro hanew
      have hself : ∀ document ∈ model.documents, document.read = .ok document := by
        intro document hdocument
        by_contra hchanged
        exact hanew ⟨hreads, document, hdocument, hchanged⟩
      rw [mapM_read_self_iff.2 hself] at hread
      cases hread
      rfl

/-- A call that fails leaves a model as it was but for its warnings, and so its text, just if it
does not parse documents that can all be read and that reading changes. Targets and the mark of
parsing stay in any case. -/
theorem failed_step {model : Model} (h : Reachable model) {call : Call} {error : AddError}
    (hfailed : (model.step call).1 = .error error) :
    (∃ documents warnings, (model.step call).2 =
      { model with documents := documents, warnings := warnings }) ∧
    ((∃ warnings, (model.step call).2 = { model with warnings := warnings }) ↔
      ¬model.ReadsAnew call) ∧
    (¬model.ReadsAnew call → (model.step call).2.encode = model.encode) := by
  have hdocuments := documents_eq_of_failed_iff h.nodup_names hfailed
  have hstays : ∃ documents warnings, (model.step call).2 =
      { model with documents := documents, warnings := warnings } := by
    rcases failed_step_cases h.nodup_names hfailed with
      ⟨-, warnings, hstep⟩ | ⟨-, documents, warnings, -, hstep⟩
    · exact ⟨model.documents, warnings, hstep⟩
    · exact ⟨documents, warnings, hstep⟩
  have hunchanged : ¬model.ReadsAnew call →
      ∃ warnings, (model.step call).2 = { model with warnings := warnings } := by
    intro hanew
    obtain ⟨documents, warnings, hstep⟩ := hstays
    have heq := hdocuments.2 hanew
    rw [hstep] at heq
    change documents = model.documents at heq
    rw [heq] at hstep
    exact ⟨warnings, hstep⟩
  refine ⟨hstays, ⟨?_, hunchanged⟩, ?_⟩
  · intro hsame
    obtain ⟨warnings, hstep⟩ := hsame
    exact hdocuments.1 (by rw [hstep])
  · intro hanew
    obtain ⟨warnings, hstep⟩ := hunchanged hanew
    rw [hstep]
    rfl

theorem reachable_clash : Reachable clash := Reachable.empty.run (addAll clashTexts)

/-- Adding a document of a known name changes nothing in the text. -/
theorem failed_step_known_name :
    (clash.step (.add "a.thrift" "const i32 Y = 1")).2.encode = clash.encode := by
  have hfailed : (clash.step (.add "a.thrift" "const i32 Y = 1")).1 = .error (.fault {
      category := .duplicateDocument
      message := .ok "a document named `a.thrift` already exists in this model" }) := rfl
  apply (failed_step reachable_clash hfailed).2.2
  intro hanew
  cases hanew.1.1

/-- A parse that cannot merge what it read leaves other documents and another text. -/
theorem failed_parse_clash :
    Reachable clash ∧ ∃ error, (clash.step .parse).1 = .error error ∧
      (clash.step .parse).2.documents ≠ clash.documents ∧
      (clash.step .parse).2.encode ≠ clash.encode := by
  obtain ⟨fault, hparse⟩ := parse_clash
  have hchanged : (clash.step .parse).2.documents ≠ clash.documents := by
    rw [step, hparse]
    change clashRead ≠ clash.documents
    decide +kernel
  refine ⟨reachable_clash, .fault fault, by rw [step, hparse]; rfl, hchanged, ?_⟩
  intro hencode
  have hfits : ∀ text ∈ clashTexts, text.2.utf8ByteSize < Text.wordSize := by decide +kernel
  have hbuilt : Built clashTexts clash := built_run (addAll clashTexts)
  have hparsed := hbuilt.step .parse
  rw [addedBy_eq_nil clash rfl, List.append_nil] at hparsed
  exact hchanged
    (eq_of_encode_eq (hparsed.portable hfits) (hbuilt.portable hfits) hencode).1

end ThriftIdl.Model

import ThriftIdl.Proofs.Parsing

/-!
Runs of calls on a model. The documents of a model are those that calls added to it, each either as
added or as read, and a parsed model has the targets its documents make up.
-/

namespace ThriftIdl.Model

/-- A call on a model. -/
inductive Call where
  | add (name source : String)
  | addBytes (name : String) (bytes : ByteArray)
  | parse
  | drain
  | look

/-- The document that a call brings, by its name and text. -/
def Call.document? : Call → Option (String × String)
  | add name source => some (name, source)
  | addBytes name bytes => (String.fromUTF8? bytes).map (name, ·)
  | _ => none

/-- The end of a call and the model after it. If no document can be added the model stays. -/
def step (model : Model) : Call → Except AddError Unit × Model
  | .add name source =>
    match model.add name source with
    | .ok next => (.ok (), next)
    | .error fault => (.error (.fault fault), model)
  | .addBytes name bytes =>
    match model.addBytes name bytes with
    | .ok next => (.ok (), next)
    | .error error => (.error error, model)
  | .parse => (model.parse.1.mapError .fault, model.parse.2)
  | .drain => (.ok (), model.drain.2)
  | .look => (.ok (), model)

/-- The model after calls, one after the other. -/
def run (model : Model) (calls : List Call) : Model :=
  calls.foldl (fun model call => (model.step call).2) model

/-- The calls that add the documents. -/
def addAll (texts : List (String × String)) : List Call := texts.map fun text => .add text.1 text.2

/-- The document that a call adds to the model, if it brings one and succeeds. -/
def addedBy (model : Model) (call : Call) : List (String × String) :=
  if (model.step call).1.isOk then call.document?.toList else []

/-- The documents that calls, one after the other, add to the model. -/
def added (model : Model) : List Call → List (String × String)
  | [] => []
  | call :: rest => model.addedBy call ++ (model.step call).2.added rest

theorem run_append (model : Model) (calls more : List Call) :
    model.run (calls ++ more) = (model.run calls).run more :=
  List.foldl_append

theorem added_append (model : Model) (calls more : List Call) :
    model.added (calls ++ more) = model.added calls ++ (model.run calls).added more := by
  induction calls generalizing model with
  | nil => rfl
  | cons call calls ih =>
    rw [List.cons_append, added, added, ih, List.append_assoc]
    rfl

/-- A call that brings no document adds none. -/
theorem addedBy_eq_nil (model : Model) {call : Call} (h : call.document? = none) :
    model.addedBy call = [] := by
  rw [addedBy, h]
  exact ite_self []

/-- The model with one more document, whatever its name. -/
def withSource (model : Model) (name source : String) : Model :=
  { model with documents := model.documents ++ [.ofSource name source] }

theorem add_eq_ok_iff {model next : Model} {name source : String} :
    model.add name source = .ok next ↔
      model.parsed = false ∧ name ∉ model.documents.map (·.name) ∧
        next = model.withSource name source := by
  rw [add, ← Lookup.find?_eq_none_iff, ← document?]
  cases hparsed : model.parsed with
  | true => simp
  | false =>
    cases hfound : model.document? name with
    | some found => simp
    | none => simp [withSource, hparsed, eq_comm]

theorem addBytes_eq_ok_iff {model next : Model} {name : String} {bytes : ByteArray} :
    model.addBytes name bytes = .ok next ↔
      ∃ text, String.fromUTF8? bytes = some text ∧ model.add name text = .ok next := by
  rw [addBytes]
  cases String.fromUTF8? bytes with
  | none => simp
  | some text =>
    cases hadd : model.add name text with
    | error fault => simp [hadd]
    | ok result => simp [hadd]

theorem addBytes_eq_fault_iff {model : Model} {name : String} {bytes : ByteArray} {fault : Fault} :
    model.addBytes name bytes = .error (.fault fault) ↔
      ∃ text, String.fromUTF8? bytes = some text ∧ model.add name text = .error fault := by
  rw [addBytes]
  cases String.fromUTF8? bytes with
  | none => simp
  | some text =>
    cases hadd : model.add name text with
    | error other => simp [hadd]
    | ok result => simp [hadd]

/-- What a call other than parsing does: it adds a document with a new name to a model that was
not parsed, or it fails and the model stays, or it succeeds and at most warnings are handed
out. -/
theorem step_cases (model : Model) {call : Call} (hcall : call ≠ .parse) :
    (∃ name source, call.document? = some (name, source) ∧ model.parsed = false ∧
      name ∉ model.documents.map (·.name) ∧
      model.step call = (.ok (), model.withSource name source)) ∨
    (∃ error, model.step call = (.error error, model)) ∨
    (call.document? = none ∧
      ∃ warnings, model.step call = (.ok (), { model with warnings := warnings })) := by
  cases call with
  | add name source =>
    cases hadd : model.add name source with
    | error fault => exact Or.inr (Or.inl ⟨.fault fault, by rw [step, hadd]⟩)
    | ok next =>
      obtain ⟨hparsed, hname, rfl⟩ := add_eq_ok_iff.1 hadd
      exact Or.inl ⟨name, source, rfl, hparsed, hname, by rw [step, hadd]⟩
  | addBytes name bytes =>
    cases hadd : model.addBytes name bytes with
    | error error => exact Or.inr (Or.inl ⟨error, by rw [step, hadd]⟩)
    | ok next =>
      obtain ⟨source, htext, hnext⟩ := addBytes_eq_ok_iff.1 hadd
      obtain ⟨hparsed, hname, rfl⟩ := add_eq_ok_iff.1 hnext
      exact Or.inl ⟨name, source, by rw [Call.document?, htext, Option.map_some], hparsed, hname,
        by rw [step, hadd]⟩
  | parse => exact absurd rfl hcall
  | drain => exact Or.inr (Or.inr ⟨rfl, [], rfl⟩)
  | look => exact Or.inr (Or.inr ⟨rfl, model.warnings, rfl⟩)

/-- The model has the documents, by name and text, in this order. -/
structure Built (pairs : List (String × String)) (model : Model) : Prop where
  versions : List.Forall₂ (fun document pair => document.Version pair.1 pair.2)
    model.documents pairs
  nodup_names : (pairs.map Prod.fst).Nodup
  no_targets : model.parsed = false → model.targets = []
  merged : model.parsed = true → (∀ document ∈ model.documents, document.read = .ok document) ∧
    Target.resolve model.documents = .ok model.targets

theorem built_empty : Built [] empty where
  versions := .nil
  nodup_names := List.nodup_nil
  no_targets := fun _ => rfl
  merged := fun h => absurd h (by decide)

variable {pairs : List (String × String)} {model : Model}

theorem map_name_of_versions {documents : List Document}
    (h : List.Forall₂ (fun document pair => document.Version pair.1 pair.2) documents pairs) :
    documents.map (·.name) = pairs.map Prod.fst :=
  Steps.map_eq_of_forall₂ h.flip fun _ _ => Document.Version.name_eq

theorem Built.map_name (h : Built pairs model) :
    model.documents.map (·.name) = pairs.map Prod.fst :=
  map_name_of_versions h.versions

theorem Built.nodup_document_names (h : Built pairs model) :
    (model.documents.map (·.name)).Nodup := by
  rw [h.map_name]
  exact h.nodup_names

theorem Built.withSource (h : Built pairs model) {name source : String}
    (hparsed : model.parsed = false) (hname : name ∉ model.documents.map (·.name)) :
    Built (pairs ++ [(name, source)]) (model.withSource name source) where
  versions := by
    apply List.rel_append h.versions
    exact .cons (Or.inl rfl) .nil
  nodup_names := by
    rw [h.map_name] at hname
    rw [List.map_append]
    exact Lookup.nodup_append_singleton.2 ⟨h.nodup_names, hname⟩
  no_targets := h.no_targets
  merged := fun hmerged => absurd hmerged (by rw [Model.withSource, hparsed]; decide)

/-- A document that was read is another version of the document. -/
theorem versions_of_mapM {documents read : List Document}
    (h : List.Forall₂ (fun document pair => document.Version pair.1 pair.2) documents pairs)
    (hread : documents.mapM Document.read = .ok read) :
    List.Forall₂ (fun document pair => document.Version pair.1 pair.2) read pairs := by
  have hall := Steps.mapM_eq_ok_iff.1 hread
  clear hread
  induction h generalizing read with
  | nil =>
    rw [List.forall₂_nil_left_iff.1 hall]
    exact .nil
  | cons hfirst _ ih =>
    obtain ⟨result, more, hresult, hmore, rfl⟩ := List.forall₂_cons_left_iff.1 hall
    apply List.Forall₂.cons
    · rw [hfirst.read_eq.1] at hresult
      exact Or.inr hresult
    · exact ih hmore

theorem Built.read_versions (h : Built pairs model) {documents : List Document}
    (hread : model.documents.mapM Document.read = .ok documents) :
    ∀ document ∈ documents, document.read = .ok document := by
  intro result hresult
  obtain ⟨document, hdocument, hok⟩ := Steps.exists_of_mem_mapM hread hresult
  obtain ⟨pair, -, hversion⟩ := Steps.exists_right_of_forall₂ h.versions hdocument
  rw [hversion.read_eq.1] at hok
  have hresultVersion : result.Version pair.1 pair.2 := Or.inr hok
  rw [hresultVersion.read_eq.1, hok]

/-- A call keeps the documents of a model and adds those that it adds. -/
theorem Built.step (h : Built pairs model) (call : Call) :
    Built (pairs ++ model.addedBy call) (model.step call).2 := by
  by_cases hcall : call = .parse
  · subst hcall
    rw [addedBy_eq_nil model rfl, List.append_nil]
    change Built pairs model.parse.2
    cases hparsed : model.parsed with
    | true =>
      rw [parse_of_parsed hparsed]
      exact h
    | false =>
      rcases parse_cases h.nodup_document_names hparsed with
        ⟨fault, -, hparse⟩ | ⟨documents, hread, ⟨fault, -, hparse⟩ | ⟨targets, hresolve, hparse⟩⟩
      · rw [hparse]
        exact ⟨h.versions, h.nodup_names, h.no_targets, h.merged⟩
      · rw [hparse]
        exact ⟨versions_of_mapM h.versions hread, h.nodup_names, h.no_targets,
          fun hmerged => absurd (hparsed.symm.trans hmerged) (by decide)⟩
      · rw [hparse]
        exact ⟨versions_of_mapM h.versions hread, h.nodup_names, fun hmerged => absurd hmerged (by simp),
          fun _ => ⟨h.read_versions hread, hresolve⟩⟩
  · rcases step_cases model hcall with
      ⟨name, source, hdocument, hparsed, hname, hstep⟩ | ⟨error, hstep⟩ |
        ⟨hdocument, warnings, hstep⟩
    · have hadded : model.addedBy call = [(name, source)] := by
        rw [addedBy, hstep, hdocument]
        rfl
      rw [hadded, hstep]
      exact h.withSource hparsed hname
    · have hadded : model.addedBy call = [] := by
        rw [addedBy, hstep]
        rfl
      rw [hadded, hstep, List.append_nil]
      exact h
    · rw [addedBy_eq_nil model hdocument, hstep, List.append_nil]
      exact ⟨h.versions, h.nodup_names, h.no_targets, h.merged⟩

theorem Built.run (h : Built pairs model) (calls : List Call) :
    Built (pairs ++ model.added calls) (model.run calls) := by
  induction calls generalizing pairs model with
  | nil =>
    rw [added, List.append_nil]
    exact h
  | cons call calls ih =>
    rw [added, ← List.append_assoc]
    exact ih (h.step call)

theorem built_run (calls : List Call) : Built (empty.added calls) (empty.run calls) :=
  built_empty.run calls

end ThriftIdl.Model

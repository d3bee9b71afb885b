import ThriftIdl.Proofs.Calls
import ThriftIdl.Proofs.Document.Reading
import ThriftIdl.Proofs.Grammar.Lines
import ThriftIdl.Proofs.Model.RoundTrip
import ThriftIdl.Proofs.Resolution
import ThriftIdl.Proofs.Text

/-!
Models that calls build. A document that is read from a text is portable, and targets that portable
documents make up stand for definitions of those documents.
-/

namespace ThriftIdl

namespace Document

theorem readDefinitions_eq_ok {document : Document} {definitions : List Definition}
    (h : document.readDefinitions = .ok definitions) :
    Grammar.readDefinitions [] document.header.rest = .ok definitions :=
  (readDefinitions_eq_ok_iff.1 h).1

/-- The lines after the header of a document are numbered below the number of its lines. -/
theorem numbersIn_header_rest (document : Document) :
    Grammar.NumbersIn (· < document.lines.length) document.header.rest := by
  intro line hline
  have hsuffix := Header.read_rest_suffix document.namespaces (Line.meaningful document.lines)
  exact Line.number_lt_of_mem_meaningful (hsuffix.subset hline)

theorem portable_of_read {document result : Document} (hkeys : document.namespaces.keys.Nodup)
    (hlines : document.lines.length ≤ Text.wordSize) (h : document.read = .ok result) :
    result.Portable := by
  obtain ⟨definitions, hdefinitions, rfl⟩ := read_eq_ok_iff.1 h
  have hnil : (([] : List Definition).map (·.name)).Nodup := List.nodup_nil
  obtain ⟨hnames, hkept⟩ := Grammar.readDefinitions_kept hnil (by simp)
    document.numbersIn_header_rest (readDefinitions_eq_ok hdefinitions)
  constructor
  · intro definition hdefinition
    have hdefinitionKept := hkept definition hdefinition
    constructor
    · exact Nat.lt_of_lt_of_le hdefinitionKept.line hlines
    · constructor
      · intro line hline
        exact Nat.lt_of_lt_of_le (hdefinitionKept.lines line hline) hlines
      · exact hdefinitionKept.types
  · exact hnames
  · exact Header.nodup_keys_read hkeys (Line.meaningful document.lines)

theorem portable_ofSource (name source : String) : (ofSource name source).Portable where
  definitions := by simp [ofSource]
  nodup_names := List.nodup_nil
  nodup_keys := nodup_keys_ofSource name source

theorem Version.portable {name source : String} {document : Document}
    (h : Version name source document) (hsize : source.utf8ByteSize < Text.wordSize) :
    document.Portable := by
  rcases h with rfl | h
  · exact portable_ofSource name source
  · have hlines : (ofSource name source).lines.length ≤ source.utf8ByteSize :=
      Text.length_linesOf_le source
    exact portable_of_read (nodup_keys_ofSource name source) (by omega) h

end Document

namespace Target

variable {documents : List Document}

/-- A definition of a document is found again under the document's name and its own. -/
theorem resolved_ofDefinition (hnames : (documents.map (·.name)).Nodup)
    (hdefinitions : ∀ document ∈ documents, (document.definitions.map (·.name)).Nodup)
    {document : Document} (hdocument : document ∈ documents) {definition : Definition}
    (hdefinition : definition ∈ document.definitions) :
    (Member.ofDefinition document.name definition).Resolved documents := by
  refine ⟨document, definition, ?_, ?_, rfl⟩
  · exact (Lookup.find?_eq_some_iff hnames).2 ⟨hdocument, rfl⟩
  · exact (Lookup.find?_eq_some_iff (hdefinitions document hdocument)).2 ⟨hdefinition, rfl⟩

theorem portable_of_resolve (hnames : (documents.map (·.name)).Nodup)
    (hdefinitions : ∀ document ∈ documents, (document.definitions.map (·.name)).Nodup)
    {targets : List Target} (h : resolve documents = .ok targets) {target : Target}
    (htarget : target ∈ targets) : target.Portable documents := by
  have hmerges := merges_of_mem_resolve h htarget
  constructor
  · exact hmerges.nodup_names
  · intro space hspace
    rw [hmerges.eq_ofMembers space hspace]
    rfl
  · intro space hspace
    constructor
    · rw [hmerges.eq_ofMembers space hspace]
      exact Namespace.grouped_grouped _
    · exact hmerges.apart_members hspace
    · intro member hmember
      obtain ⟨document, hdocument, -, definition, hdefinition, rfl⟩ :=
        mem_contributed.1 ((hmerges.mem_members hspace).1 hmember)
      exact resolved_ofDefinition hnames hdefinitions
        ((sortDocuments_perm documents).mem_iff.1 hdocument) hdefinition

theorem nodup_names_of_resolve {targets : List Target} (h : resolve documents = .ok targets) :
    (targets.map (·.name)).Nodup := by
  rw [map_name_of_resolve h]
  apply (sortedNames_strict _).imp
  intro first second hlt heq
  rw [heq] at hlt
  exact String.lt_irrefl second hlt

end Target

namespace Model

/-- The text that a call brings has fewer bytes than a word counts, as any text in memory has. -/
def Call.Fits : Call → Prop
  | add _ source => source.utf8ByteSize < Text.wordSize
  | addBytes _ bytes => bytes.size < Text.wordSize
  | _ => True

instance (call : Call) : Decidable call.Fits :=
  match call with
  | .add _ source => inferInstanceAs (Decidable (source.utf8ByteSize < Text.wordSize))
  | .addBytes _ bytes => inferInstanceAs (Decidable (bytes.size < Text.wordSize))
  | .parse => .isTrue trivial
  | .drain => .isTrue trivial
  | .look => .isTrue trivial

theorem Call.Fits.document {call : Call} (h : call.Fits) {name source : String}
    (hdocument : call.document? = some (name, source)) : source.utf8ByteSize < Text.wordSize := by
  rcases call with ⟨_, _⟩ | ⟨_, bytes⟩ | _ | _ | _
  · cases hdocument
    exact h
  · obtain ⟨text, htext, heq⟩ := Option.map_eq_some_iff.1 hdocument
    cases heq
    rw [String.fromUTF8?] at htext
    split at htext
    · cases htext
      exact h
    · cases htext
  · cases hdocument
  · cases hdocument
  · cases hdocument

theorem fits_of_mem_added {model : Model} {calls : List Call} (h : ∀ call ∈ calls, call.Fits)
    {pair : String × String} (hpair : pair ∈ model.added calls) :
    pair.2.utf8ByteSize < Text.wordSize := by
  induction calls generalizing model with
  | nil => cases hpair
  | cons call calls ih =>
    rw [List.forall_mem_cons] at h
    rcases List.mem_append.1 hpair with hpair | hpair
    · rw [addedBy] at hpair
      split at hpair
      · exact h.1.document (Option.mem_toList.1 hpair)
      · cases hpair
    · exact ih h.2 hpair

/-- What calls build from texts that fit is portable. -/
theorem Built.portable {pairs : List (String × String)} {model : Model} (h : Built pairs model)
    (hpairs : ∀ pair ∈ pairs, pair.2.utf8ByteSize < Text.wordSize) : model.Portable := by
  have hdocuments : ∀ document ∈ model.documents, document.Portable := by
    intro document hdocument
    obtain ⟨pair, hpair, hversion⟩ := Steps.exists_right_of_forall₂ h.versions hdocument
    exact hversion.portable (hpairs pair hpair)
  cases hparsed : model.parsed with
  | false =>
    have hnone := h.no_targets hparsed
    exact ⟨hdocuments, h.nodup_document_names, by simp [hnone], by simp [hnone]⟩
  | true =>
    have hresolve := (h.merged hparsed).2
    refine ⟨hdocuments, h.nodup_document_names, ?_, Target.nodup_names_of_resolve hresolve⟩
    intro target htarget
    exact Target.portable_of_resolve h.nodup_document_names
      (fun document hdocument => (hdocuments document hdocument).nodup_names) hresolve htarget

end Model

end ThriftIdl

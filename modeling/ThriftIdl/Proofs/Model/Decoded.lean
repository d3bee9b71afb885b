import ThriftIdl.Proofs.Model.RoundTrip

/-!
Models that were read from a text are portable: their lines fit a word, names stand apart, and every
member of a namespace is a definition of a document.
-/

namespace ThriftIdl

/-- A namespace that JSON lists holds what its references point to, grouped by kind. -/
theorem Namespace.Listed.portable {documents : List Document} {target : String}
    {entry : String × Json} {space : Namespace} (h : space.Listed documents target entry) :
    space.target = target ∧ space.name = entry.1 ∧ space.Portable documents := by
  obtain ⟨-, members, hmembers, hapart, rfl⟩ := h
  refine ⟨rfl, rfl, grouped_grouped members, apart_grouped.2 hapart, ?_⟩
  intro member hmember
  rw [ofMembers, (grouped_perm members).mem_iff] at hmember
  obtain ⟨item, -, hlisted⟩ := Steps.exists_right_of_forall₂ hmembers.flip hmember
  exact hlisted.resolved

namespace Decoding

theorem portable_of_document {name : String} {json : Json} {value : Document}
    (h : document name json = .ok value) : value.name = name ∧ value.Portable := by
  obtain ⟨hname, hwritten, hnames⟩ := document_eq_ok_iff.1 h
  obtain ⟨pairs, -, htable⟩ := hwritten.namespaces
  refine ⟨hname, hwritten.definitions.forall_mem fun _ _ h => h.portable, hnames, ?_⟩
  rw [htable]
  exact Table.nodup_keys_ofPairs pairs

theorem portable_of_target {documents : List Document} {name : String} {json : Json}
    (hkeys : (Table.keys json.entries).Nodup) {value : Target}
    (h : target documents name json = .ok value) :
    value.name = name ∧ value.Portable documents := by
  obtain ⟨rfl, entries, rfl, hspaces⟩ := (target_eq_ok_iff hkeys).1 h
  have hall : ∀ space ∈ value.namespaces,
      space.target = value.name ∧ space.Portable documents := by
    intro space hspace
    obtain ⟨entry, -, hlisted⟩ := Steps.exists_right_of_forall₂ hspaces.flip hspace
    exact ⟨hlisted.portable.1, hlisted.portable.2.2⟩
  have hnames : value.namespaces.map (·.name) = entries.map Prod.fst :=
    Steps.map_eq_of_forall₂ hspaces fun _ _ hlisted => hlisted.portable.2.1
  refine ⟨rfl, ?_, fun space hspace => (hall space hspace).1,
    fun space hspace => (hall space hspace).2⟩
  rw [hnames]
  exact hkeys

theorem portable_of_model {json : Json} (hkeyed : json.Keyed) {value : Model}
    (h : model json = .ok value) : value.Portable := by
  obtain ⟨-, -, ⟨sources, hsources, hread⟩, entries, hentries, hresolved⟩ := model_eq_ok_iff.1 h
  have hdocuments := hkeyed.under "documents"
  have htargets := hkeyed.under "targets"
  rw [hsources] at hdocuments
  rw [hentries] at htargets
  have hkeyedEntries : ∀ entry ∈ entries, entry.2.Keyed := fun entry hentry => htargets.entry hentry
  have hboth := (List.forall₂_and_left _ _).2 ⟨hkeyedEntries, hresolved⟩
  have hportable : List.Forall₂ (fun (entry : String × Json) (found : Target) =>
      found.name = entry.1 ∧ found.Portable value.documents) entries value.targets :=
    hboth.imp fun _ _ h => portable_of_target h.1.nodup_keys h.2
  refine ⟨?_, ?_, ?_, ?_⟩
  · intro found hfound
    obtain ⟨entry, -, hok⟩ := Steps.exists_right_of_forall₂ hread.flip hfound
    exact (portable_of_document hok).2
  · rw [Steps.map_eq_of_forall₂ hread fun _ _ hok => (portable_of_document hok).1]
    exact hdocuments.nodup_keys
  · intro found hfound
    obtain ⟨entry, -, h⟩ := Steps.exists_right_of_forall₂ hportable.flip hfound
    exact h.2
  · rw [Steps.map_eq_of_forall₂ hportable fun _ _ h => h.1]
    exact htargets.nodup_keys

end Decoding

/-- A model that was read from a text is portable. -/
theorem Model.portable_of_decode {bytes : ByteArray} {model : Model}
    (h : decode bytes = .ok model) : model.Portable := by
  rw [decode] at h
  split at h
  · cases h
  · next json hjson =>
    obtain ⟨text, _, htext⟩ := Option.bind_eq_some_iff.1 hjson
    exact Decoding.portable_of_model (Json.keyed_of_ofText? htext) h

end ThriftIdl

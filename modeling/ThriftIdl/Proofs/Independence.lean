import ThriftIdl.Proofs.Calls

/-!
What parsing ends in depends on the documents alone: neither the order in which they were added nor
a parse that failed before makes a difference.
-/

namespace ThriftIdl.Model

/-- In the order of their names, the documents of a model are versions of what was added to
it. -/
theorem Built.exists_sorted {pairs : List (String × String)} {model : Model}
    (h : Built pairs model) :
    ∃ ordered : List (String × String), ordered.Perm pairs ∧ ordered.Pairwise (·.1 < ·.1) ∧
      List.Forall₂ (fun document pair => document.Version pair.1 pair.2)
        (Target.sortDocuments model.documents) ordered := by
  obtain ⟨ordered, hversions, hperm⟩ :=
    List.perm_comp_forall₂ (Target.sortDocuments_perm model.documents) h.versions
  refine ⟨ordered, hperm, ?_, hversions⟩
  have hstrict : ((Target.sortDocuments model.documents).map (·.name)).Pairwise (· < ·) :=
    List.pairwise_map.2 (Target.sortDocuments_strict h.nodup_document_names)
  rw [map_name_of_versions hversions] at hstrict
  exact List.pairwise_map.1 hstrict

/-- Versions of the same documents are read to the same, with the same remarks. -/
theorem readAll_eq_of_versions {pairs : List (String × String)} {left right : List Document}
    (hleft : List.Forall₂ (fun document pair => document.Version pair.1 pair.2) left pairs)
    (hright : List.Forall₂ (fun document pair => document.Version pair.1 pair.2) right pairs) :
    readAll left = readAll right := by
  apply readAll_congr
  induction hleft generalizing right with
  | nil =>
    rw [List.forall₂_nil_right_iff.1 hright]
    exact .nil
  | cons hfirst _ ih =>
    obtain ⟨second, more, hsecond, hmore, rfl⟩ := List.forall₂_cons_right_iff.1 hright
    apply List.Forall₂.cons
    · exact ⟨hfirst.read_eq.1.trans hsecond.read_eq.1.symm,
        hfirst.read_eq.2.trans hsecond.read_eq.2.symm⟩
    · exact ih hmore

theorem readAll_eq_of_built {pairs others : List (String × String)} {left right : Model}
    (hleft : Built pairs left) (hright : Built others right) (hperm : pairs.Perm others) :
    readAll (Target.sortDocuments left.documents) =
      readAll (Target.sortDocuments right.documents) := by
  obtain ⟨ordered, horderedPerm, hordered, hversions⟩ := hleft.exists_sorted
  obtain ⟨other, hotherPerm, hother, hotherVersions⟩ := hright.exists_sorted
  have heq : ordered = other := by
    have hall := horderedPerm.trans (hperm.trans hotherPerm.symm)
    apply hall.eq_of_pairwise _ hordered hother
    intro first second _ _ hlt hgt
    exact absurd (String.lt_trans hlt hgt) (String.lt_irrefl first.1)
  subst heq
  exact readAll_eq_of_versions hversions hotherVersions

/-- Two models that were not parsed and whose documents are read to the same, in the order of
their names, are parsed to the same. -/
theorem parse_agree {left right : Model} (hleftNames : (left.documents.map (·.name)).Nodup)
    (hrightNames : (right.documents.map (·.name)).Nodup) (hleft : left.parsed = false)
    (hright : right.parsed = false)
    (hread : readAll (Target.sortDocuments left.documents) =
      readAll (Target.sortDocuments right.documents)) :
    left.parse.1 = right.parse.1 ∧
      (∃ warnings, left.parse.2.warnings = left.warnings ++ warnings ∧
        right.parse.2.warnings = right.warnings ++ warnings) ∧
      (left.parse.1 = .ok () → left.parse.2.documents.Perm right.parse.2.documents ∧
        (left.parse.2.documents.map (·.name)).Nodup ∧
        left.parse.2.targets = right.parse.2.targets) := by
  have happended : right.appended = left.appended := by rw [appended, appended, hread]
  rcases hsorted : (readAll (Target.sortDocuments left.documents)).1 with fault | read
  · rw [parse_of_fault hleft hsorted, parse_of_fault hright (hread ▸ hsorted), happended]
    exact ⟨rfl, ⟨_, rfl, rfl⟩, fun hok => by cases hok⟩
  · obtain ⟨documents, hdocuments, hperm⟩ := exists_mapM_of_sorted hsorted
    obtain ⟨others, hothers, hpermOther⟩ := exists_mapM_of_sorted (hread ▸ hsorted)
    have hboth : documents.Perm others := hperm.trans hpermOther.symm
    have hnames : (documents.map (·.name)).Nodup := by
      rwa [map_name_of_mapM_read hdocuments]
    rw [parse_of_read hleftNames hleft hdocuments, parse_of_read hrightNames hright hothers,
      merged, merged, ← Target.resolve_eq_of_perm hboth hnames, happended]
    rcases Target.resolve documents with fault | targets
    · exact ⟨rfl, ⟨_, rfl, rfl⟩, fun hok => by cases hok⟩
    · exact ⟨rfl, ⟨_, rfl, rfl⟩, fun _ => ⟨hboth, hnames, rfl⟩⟩

/-- After any two runs of calls that added the same documents and left the model unparsed, parsing
ends in the same way, adds the same warnings and, if it succeeds, gives the same documents by
name and the same targets. -/
theorem parse_eq_of_added {left right : List Call}
    (hleft : (empty.run left).parsed = false) (hright : (empty.run right).parsed = false)
    (hadded : ∀ pair, pair ∈ empty.added left ↔ pair ∈ empty.added right) :
    (empty.run left).parse.1 = (empty.run right).parse.1 ∧
      (∃ warnings,
        (empty.run left).parse.2.warnings = (empty.run left).warnings ++ warnings ∧
        (empty.run right).parse.2.warnings = (empty.run right).warnings ++ warnings) ∧
      ((empty.run left).parse.1 = .ok () →
        (∀ name, (empty.run left).parse.2.document? name =
          (empty.run right).parse.2.document? name) ∧
        (empty.run left).parse.2.targets = (empty.run right).parse.2.targets) := by
  have hbuilt := built_run left
  have hbuiltOther := built_run right
  have hperm : (empty.added left).Perm (empty.added right) :=
    (List.perm_ext_iff_of_nodup (.of_map _ hbuilt.nodup_names)
      (.of_map _ hbuiltOther.nodup_names)).2 hadded
  obtain ⟨houtcome, hwarnings, hsuccess⟩ := parse_agree hbuilt.nodup_document_names
    hbuiltOther.nodup_document_names hleft hright (readAll_eq_of_built hbuilt hbuiltOther hperm)
  refine ⟨houtcome, hwarnings, ?_⟩
  intro hok
  obtain ⟨hdocuments, hnames, htargets⟩ := hsuccess hok
  refine ⟨?_, htargets⟩
  intro name
  exact Lookup.find?_eq_of_perm hdocuments hnames name

/-- The clash parsed in vain, its warnings taken, ends as it does when its documents were added the
other way around. -/
theorem parse_eq_of_added_clash :
    (empty.run (addAll clashTexts ++ [.parse, .drain])).parse.1 =
      (empty.run (addAll clashTexts.reverse)).parse.1 := by
  have hclash : empty.run (addAll clashTexts) = clash := rfl
  have hadded : empty.added (addAll clashTexts) = clashTexts := rfl
  have hreverse : empty.added (addAll clashTexts.reverse) = clashTexts.reverse := rfl
  have hleft : (empty.run (addAll clashTexts ++ [.parse, .drain])).parsed = false := by
    obtain ⟨fault, hparse⟩ := parse_clash
    rw [run_append, hclash]
    change clash.parse.2.drain.2.parsed = false
    rw [hparse]
    rfl
  have hleftAdded : empty.added (addAll clashTexts ++ [.parse, .drain]) = clashTexts := by
    rw [added_append, hadded, added, added, addedBy_eq_nil _ rfl, addedBy_eq_nil _ rfl]
    rfl
  apply (parse_eq_of_added hleft rfl ?_).1
  intro pair
  rw [hleftAdded, hreverse, List.mem_reverse]

end ThriftIdl.Model

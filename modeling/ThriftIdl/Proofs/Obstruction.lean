import ThriftIdl.Proofs.Resolution

/-!
What stops documents from being merged. Targets are taken in the order of their names, and the
documents of each in the order of theirs, up to the first document that cannot be merged: it has no
namespace for the target, or a name of it is not new there.
-/

namespace ThriftIdl.Target

open Namespace (Apart)

variable {documents : List Document} {name : String}

/-- The documents make up the target: each has a namespace for it, and none gets a name twice. -/
structure Mergeable (documents : List Document) (name : String) : Prop where
  covered : ∀ document ∈ documents, (document.namespaceFor? name).isSome
  apart : ∀ space, Apart (contributed documents name space)

theorem name_eq_of_merge {target next : Target} {document : Document}
    (h : target.merge document = .ok next) :
    next.name = target.name ∧ (document.namespaceFor? target.name).isSome := by
  rw [merge] at h
  split at h
  · cases h
  · next space hspace =>
    split at h
    · cases h
      exact ⟨target.name_put _, by rw [hspace, Option.isSome_some]⟩
    · cases h

theorem covered_of_foldlM {target result : Target}
    (h : documents.foldlM merge target = .ok result) :
    ∀ document ∈ documents, (document.namespaceFor? target.name).isSome := by
  induction documents generalizing target with
  | nil => exact fun _ hdocument => absurd hdocument List.not_mem_nil
  | cons document documents ih =>
    rw [List.foldlM_cons, Steps.bind_eq_ok] at h
    obtain ⟨next, hnext, h⟩ := h
    obtain ⟨hname, hcovered⟩ := name_eq_of_merge hnext
    have hrest := ih h
    rw [hname] at hrest
    exact List.forall_mem_cons.2 ⟨hcovered, hrest⟩

theorem exists_ofDocuments_iff_mergeable :
    (∃ target, ofDocuments documents name = .ok target) ↔ Mergeable documents name := by
  constructor
  · rintro ⟨target, htarget⟩
    exact ⟨covered_of_foldlM htarget, (merges_of_ofDocuments htarget).apart⟩
  · intro h
    exact (exists_ofDocuments_iff h.covered).2 h.apart

theorem category_of_register {space : Namespace} {document : String} {definition : Definition}
    {fault : Fault} (h : space.register document definition = .error fault) :
    ∃ earlier, fault.category = .duplicateIdentifier .sharedNamespace earlier := by
  rw [Namespace.register] at h
  split at h
  · next earlier _ =>
    cases h
    exact ⟨earlier, rfl⟩
  · cases h

/-- A document that cannot be merged has no namespace for the target, or brings a name twice. -/
theorem merge_error_cases {target : Target} {document : Document} {fault : Fault}
    (h : target.merge document = .error fault) :
    (document.namespaceFor? target.name = none ∧ fault.category = .internal) ∨
      (document.namespaceFor? target.name ≠ none ∧
        ∃ earlier, fault.category = .duplicateIdentifier .sharedNamespace earlier) := by
  rw [merge] at h
  split at h
  · next hnone =>
    cases h
    exact Or.inl ⟨hnone, rfl⟩
  · next space hspace =>
    split at h
    · cases h
    · next clash hclash =>
      cases h
      obtain ⟨_, definition, _, middle, -, -, hregister⟩ := Steps.foldlM_eq_error_iff.1 hclash
      obtain ⟨earlier, hcategory⟩ := category_of_register hregister
      have hsource : (clash.withSource document.lines).category = clash.category := by
        rw [Fault.withSource]
        split
        · rfl
        · rfl
      exact Or.inr ⟨by simp [hspace], earlier, hsource.trans hcategory⟩

theorem category_of_merge {target : Target} {document : Document} {fault : Fault}
    (h : target.merge document = .error fault) :
    fault.category = .internal ↔ document.namespaceFor? target.name = none := by
  rcases merge_error_cases h with ⟨hnone, hcategory⟩ | ⟨hsome, earlier, hcategory⟩
  · exact iff_of_true hcategory hnone
  · exact iff_of_false (by simp [hcategory]) hsome

/-- Documents that cannot be merged lack a namespace, or bring a name twice. -/
theorem category_of_resolve {fault : Fault} (h : resolve documents = .error fault) :
    fault.category = .internal ∨
      ∃ earlier, fault.category = .duplicateIdentifier .sharedNamespace earlier := by
  obtain ⟨_, name, _, -, -, hname⟩ := Steps.mapM_eq_error_iff.1 h
  obtain ⟨_, document, _, target, -, -, hmerge⟩ := Steps.foldlM_eq_error_iff.1 hname
  exact (merge_error_cases hmerge).imp And.right And.right

/-- The documents cannot all be merged, and what stops them first is one without a namespace for a
target. -/
def Uncovered (documents : List Document) : Prop :=
  ∃ earlier name later before document after,
    namesOf documents = earlier ++ name :: later ∧
      sortDocuments documents = before ++ document :: after ∧
      (∀ other ∈ earlier, Mergeable (sortDocuments documents) other) ∧
      Mergeable before name ∧ document.namespaceFor? name = none

theorem ofDocuments_internal_iff :
    (∃ fault, ofDocuments documents name = .error fault ∧ fault.category = .internal) ↔
      ∃ before document after, documents = before ++ document :: after ∧
        Mergeable before name ∧ document.namespaceFor? name = none := by
  constructor
  · rintro ⟨fault, h, hinternal⟩
    obtain ⟨before, document, after, target, rfl, hbefore, hmerge⟩ :=
      Steps.foldlM_eq_error_iff.1 h
    have hnone := (category_of_merge hmerge).1 hinternal
    rw [(merges_of_ofDocuments hbefore).name_eq] at hnone
    exact ⟨before, document, after, rfl, exists_ofDocuments_iff_mergeable.1 ⟨target, hbefore⟩,
      hnone⟩
  · rintro ⟨before, document, after, rfl, hbefore, hnone⟩
    obtain ⟨target, htarget⟩ := exists_ofDocuments_iff_mergeable.2 hbefore
    rw [← (merges_of_ofDocuments htarget).name_eq] at hnone
    cases hmerge : target.merge document with
    | ok next =>
      have hcovered := (name_eq_of_merge hmerge).2
      rw [hnone] at hcovered
      cases hcovered
    | error fault =>
      refine ⟨fault, ?_, (category_of_merge hmerge).2 hnone⟩
      exact Steps.foldlM_eq_error_iff.2 ⟨before, document, after, target, rfl, htarget, hmerge⟩

/-- Merging breaks a rule of the program exactly if a document without a namespace stops it. -/
theorem resolve_internal_iff :
    (∃ fault, resolve documents = .error fault ∧ fault.category = .internal) ↔
      Uncovered documents := by
  constructor
  · rintro ⟨fault, h, hinternal⟩
    obtain ⟨earlier, name, later, hnames, hearlier, hname⟩ := Steps.mapM_eq_error_iff.1 h
    obtain ⟨before, document, after, hdocuments, hbefore, hnone⟩ :=
      ofDocuments_internal_iff.1 ⟨fault, hname, hinternal⟩
    exact ⟨earlier, name, later, before, document, after, hnames, hdocuments,
      fun other hother => exists_ofDocuments_iff_mergeable.1 (hearlier other hother), hbefore,
      hnone⟩
  · rintro ⟨earlier, name, later, before, document, after, hnames, hdocuments, hearlier, hbefore,
      hnone⟩
    obtain ⟨fault, hfault, hinternal⟩ :=
      ofDocuments_internal_iff.2 ⟨before, document, after, hdocuments, hbefore, hnone⟩
    refine ⟨fault, Steps.mapM_eq_error_iff.2 ⟨earlier, name, later, hnames, ?_, hfault⟩, hinternal⟩
    exact fun other hother => exists_ofDocuments_iff_mergeable.2 (hearlier other hother)

end ThriftIdl.Target

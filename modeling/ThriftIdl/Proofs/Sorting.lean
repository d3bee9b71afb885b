import ThriftIdl.Target

/-!
The order of targets and documents. Names are sorted strictly and none is lost; documents with names
apart are sorted to one list, however they stand.
-/

namespace ThriftIdl.Target

theorem lt_of_le_of_ne {left right : String} (hle : left ≤ right) (hne : left ≠ right) :
    left < right := by
  rw [← String.not_le]
  intro hge
  exact hne (String.le_antisymm hle hge)

/-- Of a sorted list, erasing repetitions keeps every name, each once. -/
theorem eraseReps_loop {first : String} {rest : List String}
    (hsorted : (first :: rest).Pairwise (· ≤ ·)) (done : List String) :
    ∃ kept, List.eraseRepsBy.loop (· == ·) first rest done = done.reverse ++ kept ∧
      (∀ name, name ∈ kept ↔ name ∈ first :: rest) ∧ kept.Pairwise (· < ·) := by
  induction rest generalizing first done with
  | nil => exact ⟨[first], by simp [List.eraseRepsBy.loop], fun _ => Iff.rfl, by simp⟩
  | cons second rest ih =>
    rw [List.pairwise_cons] at hsorted
    by_cases heq : first = second
    · subst heq
      obtain ⟨kept, hkept, hmem, hstrict⟩ := ih hsorted.2 done
      refine ⟨kept, by simp [List.eraseRepsBy.loop, hkept], ?_, hstrict⟩
      intro name
      rw [hmem, List.mem_cons, List.mem_cons, List.mem_cons]
      simp
    · obtain ⟨kept, hkept, hmem, hstrict⟩ := ih hsorted.2 (first :: done)
      refine ⟨first :: kept, ?_, ?_, ?_⟩
      · have hbeq : (first == second) = false := beq_eq_false_iff_ne.2 heq
        simp [List.eraseRepsBy.loop, hbeq, hkept]
      · intro name
        rw [List.mem_cons, List.mem_cons, hmem]
      · rw [List.pairwise_cons]
        refine ⟨?_, hstrict⟩
        intro name hname
        have hle := hsorted.1 name ((hmem name).1 hname)
        apply lt_of_le_of_ne hle
        rintro rfl
        -- A later name equal to the first would press the second between them.
        have hsecond : second ≤ first := by
          rcases List.mem_cons.1 ((hmem first).1 hname) with h | h
          · exact absurd h heq
          · exact (List.pairwise_cons.1 hsorted.2).1 first h
        exact heq (String.le_antisymm (hsorted.1 second List.mem_cons_self) hsecond)

theorem exists_eraseReps {names : List String} (hsorted : names.Pairwise (· ≤ ·)) :
    (∀ name, name ∈ names.eraseReps ↔ name ∈ names) ∧ names.eraseReps.Pairwise (· < ·) := by
  cases names with
  | nil => simp [List.eraseReps, List.eraseRepsBy]
  | cons first rest =>
    obtain ⟨kept, hkept, hmem, hstrict⟩ := eraseReps_loop hsorted []
    have heq : (first :: rest).eraseReps = kept := by
      simpa [List.eraseReps, List.eraseRepsBy] using hkept
    rw [heq]
    exact ⟨hmem, hstrict⟩

theorem mergeSort_sorted {α : Type} (key : α → String) (items : List α) :
    (items.mergeSort fun left right => decide (key left ≤ key right)).Pairwise
      (key · ≤ key ·) := by
  have htrans : ∀ left middle right : α, decide (key left ≤ key middle) = true →
      decide (key middle ≤ key right) = true → decide (key left ≤ key right) = true := by
    intro left middle right hleft hright
    exact decide_eq_true (String.le_trans (of_decide_eq_true hleft) (of_decide_eq_true hright))
  have htotal : ∀ left right : α,
      (decide (key left ≤ key right) || decide (key right ≤ key left)) = true := by
    intro left right
    simpa using String.le_total (key left) (key right)
  exact (List.pairwise_mergeSort htrans htotal items).imp of_decide_eq_true

theorem sortedNames_strict (names : List String) : (sortedNames names).Pairwise (· < ·) :=
  (exists_eraseReps (mergeSort_sorted id names)).2

theorem mem_sortedNames {names : List String} {name : String} :
    name ∈ sortedNames names ↔ name ∈ names :=
  ((exists_eraseReps (mergeSort_sorted id names)).1 name).trans List.mem_mergeSort

theorem eq_of_strict_of_mem {left right : List String} (hleft : left.Pairwise (· < ·))
    (hright : right.Pairwise (· < ·)) (hmem : ∀ name, name ∈ left ↔ name ∈ right) :
    left = right := by
  have hne : ∀ {names : List String}, names.Pairwise (· < ·) → names.Nodup := by
    intro names hstrict
    apply hstrict.imp
    rintro name _ hlt rfl
    exact String.lt_irrefl name hlt
  have hperm := (List.perm_ext_iff_of_nodup (hne hleft) (hne hright)).2 hmem
  apply hperm.eq_of_pairwise _ hleft hright
  intro first second _ _ hlt hgt
  exact absurd (String.lt_trans hlt hgt) (String.lt_irrefl first)

theorem mem_namesOf {documents : List Document} {name : String} :
    name ∈ namesOf documents ↔
      name = defaultTarget ∨ ∃ document ∈ documents, name ∈ document.namespaces.keys := by
  rw [namesOf, mem_sortedNames, List.mem_append, List.mem_flatMap, List.mem_singleton]
  exact or_comm

theorem namesOf_eq_of_perm {left right : List Document} (h : left.Perm right) :
    namesOf left = namesOf right := by
  apply eq_of_strict_of_mem (sortedNames_strict _) (sortedNames_strict _)
  intro name
  have hleft : name ∈ namesOf left ↔ _ := mem_namesOf
  have hright : name ∈ namesOf right ↔ _ := mem_namesOf
  simp only [h.mem_iff] at hleft
  exact hleft.trans hright.symm

theorem sortDocuments_perm (documents : List Document) :
    (sortDocuments documents).Perm documents :=
  List.mergeSort_perm documents _

theorem sortDocuments_strict {documents : List Document}
    (hnames : (documents.map (·.name)).Nodup) :
    (sortDocuments documents).Pairwise (·.name < ·.name) := by
  have hnodup : ((sortDocuments documents).map (·.name)).Nodup :=
    ((sortDocuments_perm documents).map _).nodup_iff.2 hnames
  rw [List.Nodup, List.pairwise_map] at hnodup
  have hsorted := mergeSort_sorted (·.name) documents
  exact hsorted.imp₂ (fun _ _ hle hne => lt_of_le_of_ne hle hne) hnodup

theorem nodup_names_of_strict {documents : List Document}
    (h : documents.Pairwise (·.name < ·.name)) : (documents.map (·.name)).Nodup := by
  apply List.pairwise_map.2
  apply h.imp
  intro left right hlt heq
  rw [heq] at hlt
  exact String.lt_irrefl right.name hlt

/-- Documents in the order of their names are sorted already, however they stood before. -/
theorem eq_sortDocuments {documents ordered : List Document} (hperm : ordered.Perm documents)
    (hordered : ordered.Pairwise (·.name < ·.name)) : ordered = sortDocuments documents := by
  have hnames := ((hperm.map _).nodup_iff).1 (nodup_names_of_strict hordered)
  apply (hperm.trans (sortDocuments_perm documents).symm).eq_of_pairwise _ hordered
    (sortDocuments_strict hnames)
  intro first second _ _ hlt hgt
  exact absurd (String.lt_trans hlt hgt) (String.lt_irrefl first.name)

/-- The order in which documents with names apart were added does not matter. -/
theorem sortDocuments_eq_of_perm {left right : List Document} (h : left.Perm right)
    (hnames : (left.map (·.name)).Nodup) : sortDocuments left = sortDocuments right :=
  eq_sortDocuments ((sortDocuments_perm left).trans h) (sortDocuments_strict hnames)

theorem resolve_eq_of_perm {left right : List Document} (h : left.Perm right)
    (hnames : (left.map (·.name)).Nodup) : resolve left = resolve right := by
  rw [resolve, resolve, namesOf_eq_of_perm h, sortDocuments_eq_of_perm h hnames]

end ThriftIdl.Target

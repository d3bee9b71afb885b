import Mathlib.Data.List.Forall2
import Mathlib.Data.List.Perm.Basic
import ThriftIdl.Proofs.Lookup

/-!
Steps that may fail, one after the other.
-/

namespace ThriftIdl.Steps

variable {ε α β γ : Type}

/-- Two steps succeed exactly if the first does, and the second with its value. -/
theorem bind_eq_ok {first : Except ε α} {second : α → Except ε β} {result : β} :
    first >>= second = .ok result ↔
      ∃ value, first = .ok value ∧ second value = .ok result := by
  cases first <;> simp [bind, Except.bind]

/-- Two steps fail exactly if the first does, or the second with the first's value. -/
theorem bind_eq_error {first : Except ε α} {second : α → Except ε β} {error : ε} :
    first >>= second = .error error ↔
      first = .error error ∨ ∃ value, first = .ok value ∧ second value = .error error := by
  cases first <;> simp [bind, Except.bind]

theorem bind_ok {first : Except ε α} {second : α → Except ε β} {value : α} {result : β}
    (hfirst : first = .ok value) (hsecond : second value = .ok result) :
    first >>= second = .ok result :=
  bind_eq_ok.2 ⟨value, hfirst, hsecond⟩

theorem bind_of_ok {first : Except ε α} {second : α → Except ε β} {value : α}
    (h : first = .ok value) : first >>= second = second value := by
  rw [h]
  rfl

theorem pure_eq_ok {value result : α} :
    (pure value : Except ε α) = .ok result ↔ value = result := by
  simp [pure, Except.pure]

theorem mapM_eq_ok_iff {f : α → Except ε β} {items : List α} {results : List β} :
    items.mapM f = .ok results ↔
      List.Forall₂ (fun item result => f item = .ok result) items results := by
  induction items generalizing results with
  | nil =>
    rw [List.mapM_nil, pure_eq_ok, List.forall₂_nil_left_iff]
    exact eq_comm
  | cons item items ih =>
    rw [List.mapM_cons, bind_eq_ok, List.forall₂_cons_left_iff]
    constructor
    · rintro ⟨result, hresult, h⟩
      obtain ⟨more, hmore, h⟩ := bind_eq_ok.1 h
      exact ⟨result, more, hresult, ih.1 hmore, (pure_eq_ok.1 h).symm⟩
    · rintro ⟨result, more, hresult, hmore, rfl⟩
      exact ⟨result, hresult, bind_eq_ok.2 ⟨more, ih.2 hmore, rfl⟩⟩

/-- Related items can be told from each other if each can. -/
theorem map_eq_of_forall₂ {R : α → β → Prop} {f : α → γ} {g : β → γ} {left : List α}
    {right : List β} (h : List.Forall₂ R left right)
    (hkey : ∀ item other, R item other → g other = f item) : right.map g = left.map f := by
  rw [← List.forall₂_eq_eq_eq, List.forall₂_map_left_iff, List.forall₂_map_right_iff]
  exact h.flip.imp fun other item hrel => hkey item other hrel

/-- The items can be told from the results if each can. -/
theorem map_eq_of_mapM {f : α → Except ε β} {g : β → γ} {key : α → γ} {items : List α}
    {results : List β} (h : items.mapM f = .ok results)
    (hkey : ∀ item result, f item = .ok result → g result = key item) :
    results.map g = items.map key :=
  map_eq_of_forall₂ (mapM_eq_ok_iff.1 h) hkey

theorem exists_right_of_forall₂ {R : α → β → Prop} {left : List α} {right : List β}
    (h : List.Forall₂ R left right) {item : α} (hitem : item ∈ left) :
    ∃ other ∈ right, R item other := by
  induction h with
  | nil => exact absurd hitem (by simp)
  | @cons first second left right hfirst _ ih =>
    rcases List.mem_cons.1 hitem with rfl | hitem
    · exact ⟨second, List.mem_cons_self, hfirst⟩
    · obtain ⟨other, hother, hrel⟩ := ih hitem
      exact ⟨other, List.mem_cons_of_mem second hother, hrel⟩

/-- What related items have in common, all of them have or all of those related to them. -/
theorem forall_mem_iff_of_forall₂ {R : α → β → Prop} {P : α → Prop} {Q : β → Prop}
    {left : List α} {right : List β} (h : List.Forall₂ R left right)
    (hiff : ∀ item other, R item other → (P item ↔ Q other)) :
    (∀ item ∈ left, P item) ↔ ∀ other ∈ right, Q other := by
  induction h with
  | nil => simp
  | cons hfirst _ ih => rw [List.forall_mem_cons, List.forall_mem_cons, hiff _ _ hfirst, ih]

/-- Every result of successful steps comes from one of the items. -/
theorem exists_of_mem_mapM {f : α → Except ε β} {items : List α} {results : List β}
    (h : items.mapM f = .ok results) {result : β} (hresult : result ∈ results) :
    ∃ item ∈ items, f item = .ok result :=
  exists_right_of_forall₂ (mapM_eq_ok_iff.1 h).flip hresult

/-- Every item has a result. -/
theorem exists_mem_of_mapM {f : α → Except ε β} {items : List α} {results : List β}
    (h : items.mapM f = .ok results) {item : α} (hitem : item ∈ items) :
    ∃ result ∈ results, f item = .ok result :=
  exists_right_of_forall₂ (mapM_eq_ok_iff.1 h) hitem

/-- The order of the items is the order of the results. -/
theorem mapM_of_perm {f : α → Except ε β} {left right : List α} {results : List β}
    (hperm : left.Perm right) (h : right.mapM f = .ok results) :
    ∃ others, left.mapM f = .ok others ∧ others.Perm results := by
  obtain ⟨others, hothers, hresults⟩ := List.perm_comp_forall₂ hperm (mapM_eq_ok_iff.1 h)
  exact ⟨others, mapM_eq_ok_iff.2 hothers, hresults⟩

/-- Every item has something related exactly if there is a list of such. -/
theorem exists_forall₂_iff {R : α → β → Prop} {items : List α} :
    (∃ results, List.Forall₂ R items results) ↔ ∀ item ∈ items, ∃ result, R item result := by
  induction items with
  | nil => exact iff_of_true ⟨[], .nil⟩ (by simp)
  | cons item items ih =>
    rw [List.forall_mem_cons, ← ih]
    constructor
    · rintro ⟨results, h⟩
      obtain ⟨result, more, hresult, hmore, _⟩ := List.forall₂_cons_left_iff.1 h
      exact ⟨⟨result, hresult⟩, more, hmore⟩
    · rintro ⟨⟨result, hresult⟩, more, hmore⟩
      exact ⟨result :: more, .cons hresult hmore⟩

/-- Steps over the items all succeed exactly if each does. -/
theorem exists_mapM_eq_ok_iff {f : α → Except ε β} {items : List α} :
    (∃ results, items.mapM f = .ok results) ↔ ∀ item ∈ items, ∃ result, f item = .ok result := by
  simp only [mapM_eq_ok_iff, exists_forall₂_iff]

/-- Steps over the items fail exactly if one of them does and all before it succeed. -/
theorem mapM_eq_error_iff {f : α → Except ε β} {items : List α} {error : ε} :
    items.mapM f = .error error ↔ ∃ before item after, items = before ++ item :: after ∧
      (∀ other ∈ before, ∃ result, f other = .ok result) ∧ f item = .error error := by
  induction items with
  | nil => simp [pure, Except.pure]
  | cons item items ih =>
    rw [List.mapM_cons, bind_eq_error]
    constructor
    · rintro (hitem | ⟨result, hresult, h⟩)
      · exact ⟨[], item, items, rfl, by simp, hitem⟩
      · rcases bind_eq_error.1 h with h | ⟨more, -, h⟩
        · obtain ⟨before, other, after, rfl, hbefore, hother⟩ := ih.1 h
          refine ⟨item :: before, other, after, rfl, ?_, hother⟩
          rw [List.forall_mem_cons]
          exact ⟨⟨result, hresult⟩, hbefore⟩
        · cases h
    · rintro ⟨before, other, after, heq, hbefore, hother⟩
      cases before with
      | nil =>
        cases heq
        exact Or.inl hother
      | cons first before =>
        cases heq
        rw [List.forall_mem_cons] at hbefore
        obtain ⟨⟨result, hresult⟩, hbefore⟩ := hbefore
        have hrest := ih.2 ⟨before, other, after, rfl, hbefore, hother⟩
        exact Or.inr ⟨result, hresult, bind_eq_error.2 (Or.inl hrest)⟩

/-- Steps one after the other fail exactly if one of them does on what those before it give. -/
theorem foldlM_eq_error_iff {σ : Type} {f : σ → α → Except ε σ} {items : List α} {state : σ}
    {error : ε} :
    items.foldlM f state = .error error ↔ ∃ before item after next,
      items = before ++ item :: after ∧ before.foldlM f state = .ok next ∧
        f next item = .error error := by
  induction items generalizing state with
  | nil => simp [pure, Except.pure]
  | cons item items ih =>
    rw [List.foldlM_cons, bind_eq_error]
    constructor
    · rintro (hitem | ⟨next, hnext, h⟩)
      · exact ⟨[], item, items, state, rfl, rfl, hitem⟩
      · obtain ⟨before, other, after, last, rfl, hlast, hother⟩ := ih.1 h
        refine ⟨item :: before, other, after, last, rfl, ?_, hother⟩
        rw [List.foldlM_cons]
        exact bind_ok hnext hlast
    · rintro ⟨before, other, after, last, heq, hlast, hother⟩
      cases before with
      | nil =>
        cases heq
        cases hlast
        exact Or.inl hother
      | cons first before =>
        cases heq
        rw [List.foldlM_cons, bind_eq_ok] at hlast
        obtain ⟨next, hnext, hlast⟩ := hlast
        exact Or.inr ⟨next, hnext, ih.2 ⟨before, other, after, last, rfl, hlast, hother⟩⟩

/-- What holds of a state and is kept by every step holds after all of them. -/
theorem of_foldlM {σ : Type} {f : σ → α → Except ε σ} {Good : σ → Prop}
    (hkeep : ∀ state item next, Good state → f state item = .ok next → Good next)
    {items : List α} {state result : σ} (hstate : Good state)
    (h : items.foldlM f state = .ok result) : Good result := by
  induction items generalizing state with
  | nil =>
    cases h
    exact hstate
  | cons item items ih =>
    rw [List.foldlM_cons, bind_eq_ok] at h
    obtain ⟨next, hnext, h⟩ := h
    exact ih (hkeep state item next hstate hnext) h

/-- Steps that each add something with a new key succeed together exactly if each item stands for
something and no key stands twice. -/
theorem foldlM_eq_ok_iff_apart {σ : Type} {f : σ → α → Except ε σ} (state : List β → σ)
    (R : α → β → Prop) (key : β → γ) {items : List α}
    (hstep : ∀ item ∈ items, ∀ done result, f (state done) item = .ok result ↔
      ∃ added, R item added ∧ key added ∉ done.map key ∧ result = state (done ++ [added]))
    {done : List β} (hdone : (done.map key).Nodup) {result : σ} :
    items.foldlM f (state done) = .ok result ↔
      ∃ added, List.Forall₂ R items added ∧ ((done ++ added).map key).Nodup ∧
        result = state (done ++ added) := by
  induction items generalizing done with
  | nil =>
    simp only [List.foldlM_nil, pure_eq_ok, List.forall₂_nil_left_iff, exists_eq_left,
      List.append_nil, hdone, true_and]
    exact eq_comm
  | cons item items ih =>
    rw [List.forall_mem_cons] at hstep
    rw [List.foldlM_cons, bind_eq_ok]
    constructor
    · rintro ⟨next, hnext, hrest⟩
      obtain ⟨first, hfirst, hnew, rfl⟩ := (hstep.1 done next).1 hnext
      have hnodup : ((done ++ [first]).map key).Nodup :=
        Lookup.nodup_map_append_singleton.2 ⟨hdone, hnew⟩
      obtain ⟨added, hadded, hall, rfl⟩ := (ih hstep.2 hnodup).1 hrest
      rw [← List.append_cons] at hall ⊢
      exact ⟨first :: added, .cons hfirst hadded, hall, rfl⟩
    · rintro ⟨added, hadded, hall, rfl⟩
      obtain ⟨first, more, hfirst, hmore, rfl⟩ := List.forall₂_cons_left_iff.1 hadded
      rw [List.append_cons] at hall
      have hnodup : ((done ++ [first]).map key).Nodup :=
        ((List.sublist_append_left _ _).map key).nodup hall
      have hnew := (Lookup.nodup_map_append_singleton.1 hnodup).2
      refine ⟨_, (hstep.1 done _).2 ⟨first, hfirst, hnew, rfl⟩, ?_⟩
      exact (ih hstep.2 hnodup).2 ⟨more, hmore, hall, by rw [← List.append_cons]⟩

/-- Steps that each add an item with a new key succeed together exactly if no key stands twice. -/
theorem foldlM_eq_ok_iff_nodup {σ : Type} {f : σ → α → Except ε σ} (state : List β → σ)
    (g : α → β) (key : β → γ) {items : List α}
    (hstep : ∀ item ∈ items, ∀ done result, f (state done) item = .ok result ↔
      key (g item) ∉ done.map key ∧ result = state (done ++ [g item]))
    {done : List β} (hdone : (done.map key).Nodup) {result : σ} :
    items.foldlM f (state done) = .ok result ↔
      ((done ++ items.map g).map key).Nodup ∧ result = state (done ++ items.map g) := by
  rw [foldlM_eq_ok_iff_apart state (fun item added => g item = added) key _ hdone]
  · simp only [← List.forall₂_map_left_iff, List.forall₂_eq_eq_eq, exists_eq_left']
  · simpa using hstep

/-- The step fails exactly if something is found, with an error that what is found has. -/
structure Reports (R : β → ε → Prop) (step : Except ε α) (found? : Option β) : Prop where
  error_iff : ∀ error, step = .error error ↔ ∃ found, found? = some found ∧ R found error
  exists_error : ∀ found, found? = some found → ∃ error, R found error

section Reports

variable {δ : Type} {R : δ → ε → Prop} {left? right? : Option δ}

theorem Reports.exists_ok_iff {step : Except ε α} (h : Reports R step left?) :
    (∃ value, step = .ok value) ↔ left? = none := by
  cases left? with
  | none =>
    refine iff_of_true ?_ rfl
    cases step with
    | ok value => exact ⟨value, rfl⟩
    | error error =>
      obtain ⟨found, hfound, -⟩ := (h.error_iff error).1 rfl
      cases hfound
  | some found =>
    obtain ⟨error, herror⟩ := h.exists_error found rfl
    have hfails := (h.error_iff error).2 ⟨found, rfl, herror⟩
    simp [hfails]

theorem reports_ok (value : α) : Reports R (.ok value : Except ε α) none where
  error_iff := by simp
  exists_error := by simp

/-- Two steps report what is found for the first, or else for the second. -/
theorem Reports.bind {first : Except ε α} {second : α → Except ε β}
    (hfirst : Reports R first left?)
    (hsecond : ∀ value, first = .ok value → Reports R (second value) right?) :
    Reports R (first >>= second) (left?.or right?) := by
  cases hstep : first with
  | error error =>
    subst hstep
    obtain ⟨found, rfl, -⟩ := (hfirst.error_iff error).1 rfl
    rw [Option.some_or]
    refine ⟨fun other => ?_, hfirst.exists_error⟩
    rw [← hfirst.error_iff other, bind_eq_error]
    simp
  | ok value =>
    rw [hfirst.exists_ok_iff.1 ⟨value, hstep⟩]
    exact hsecond value hstep

/-- A step that fails with what is made of the errors of another reports the same. -/
theorem Reports.mapError {S : δ → ε → Prop} {step : Except ε α} {other : Except ε β}
    (h : Reports R step left?) (change : ε → ε)
    (hok : ∀ value, step = .ok value → ∃ result, other = .ok result)
    (herror : ∀ error, step = .error error → other = .error (change error))
    (hchange : ∀ found, left? = some found →
      ∀ error, S found error ↔ ∃ former, R found former ∧ error = change former) :
    Reports S other left? := by
  constructor
  · intro error
    cases hstep : step with
    | ok value =>
      obtain ⟨result, hresult⟩ := hok value hstep
      rw [h.exists_ok_iff.1 ⟨value, hstep⟩, hresult]
      simp
    | error former =>
      obtain ⟨found, hfound, hformer⟩ := (h.error_iff former).1 hstep
      rw [herror former hstep, Except.error.injEq]
      constructor
      · rintro rfl
        exact ⟨found, hfound, (hchange found hfound _).2 ⟨former, hformer, rfl⟩⟩
      · rintro ⟨_, hagain, hresult⟩
        obtain ⟨last, hlast, rfl⟩ := (hchange _ hagain error).1 hresult
        have hboth := (h.error_iff last).2 ⟨_, hagain, hlast⟩
        rw [hstep, Except.error.injEq] at hboth
        rw [hboth]
  · intro found hfound
    obtain ⟨former, hformer⟩ := h.exists_error found hfound
    exact ⟨change former, (hchange found hfound _).2 ⟨former, hformer, rfl⟩⟩

theorem Reports.mapM {f : α → Except ε β} {find? : α → Option δ} {items : List α}
    (h : ∀ item ∈ items, Reports R (f item) (find? item)) :
    Reports R (items.mapM f) (items.findSome? find?) := by
  induction items with
  | nil => exact reports_ok []
  | cons item items ih =>
    rw [List.forall_mem_cons] at h
    have hfound : (item :: items).findSome? find? =
        (find? item).or ((items.findSome? find?).or none) := by
      rw [List.findSome?_cons, Option.or_none]
      cases find? item with
      | none => rfl
      | some found => rfl
    rw [List.mapM_cons, hfound]
    exact h.1.bind fun result _ => (ih h.2).bind fun results _ => reports_ok (result :: results)

end Reports

/-- The items up to and including the first that fails. -/
def attempted (succeeds : α → Bool) (items : List α) : List α :=
  items.takeWhile succeeds ++ (items.dropWhile succeeds).take 1

theorem attempted_cons (succeeds : α → Bool) (item : α) (items : List α) :
    attempted succeeds (item :: items) =
      if succeeds item then item :: attempted succeeds items else [item] := by
  rw [attempted, attempted, List.takeWhile_cons, List.dropWhile_cons]
  split <;> rfl

theorem attempted_map (succeeds : β → Bool) (f : α → β) (items : List α) :
    attempted succeeds (items.map f) = (attempted (succeeds ∘ f) items).map f := by
  rw [attempted, attempted, List.takeWhile_map, List.dropWhile_map, List.map_append, List.map_take]

end ThriftIdl.Steps

import Mathlib.Data.List.Induction
import ThriftIdl.Proofs.Lookup
import ThriftIdl.Table

/-!
Tables without repeated keys. Writing keeps keys apart, pairs with keys apart are their own table, a
table holds its entries, and writing the same pairs twice is writing them once.
-/

namespace ThriftIdl.Table

variable {α : Type}

theorem nodup_keys_insert {table : Table α} (h : (keys table).Nodup) (key : String) (value : α) :
    (keys (insert key value table)).Nodup := by
  rw [keys_insert]
  split
  · exact h
  · next hkey => exact Lookup.nodup_append_singleton.2 ⟨h, hkey⟩

theorem nodup_keys_foldl_insert (pairs : List (String × α)) {table : Table α}
    (h : (keys table).Nodup) :
    (keys (pairs.foldl (fun table pair => table.insert pair.1 pair.2) table)).Nodup := by
  induction pairs generalizing table with
  | nil => exact h
  | cons pair pairs ih => exact ih (nodup_keys_insert h pair.1 pair.2)

theorem nodup_keys_ofPairs (pairs : List (String × α)) : (keys (ofPairs pairs)).Nodup :=
  nodup_keys_foldl_insert pairs (by simp [keys])

theorem mem_insert {key : String} {value : α} {table : Table α} {entry : String × α}
    (h : entry ∈ insert key value table) : entry = (key, value) ∨ entry ∈ table := by
  induction table with
  | nil => exact Or.inl (List.mem_singleton.1 h)
  | cons first table ih =>
    rw [insert] at h
    split at h
    · rcases List.mem_cons.1 h with h | h
      · exact Or.inl h
      · exact Or.inr (List.mem_cons_of_mem first h)
    · rcases List.mem_cons.1 h with rfl | h
      · exact Or.inr List.mem_cons_self
      · rcases ih h with h | h
        · exact Or.inl h
        · exact Or.inr (List.mem_cons_of_mem first h)

theorem mem_foldl_insert {pairs : List (String × α)} {table : Table α} {entry : String × α}
    (h : entry ∈ pairs.foldl (fun table pair => table.insert pair.1 pair.2) table) :
    entry ∈ table ∨ entry ∈ pairs := by
  induction pairs generalizing table with
  | nil => exact Or.inl h
  | cons pair pairs ih =>
    rcases ih h with h | h
    · rcases mem_insert h with rfl | h
      · exact Or.inr List.mem_cons_self
      · exact Or.inl h
    · exact Or.inr (List.mem_cons_of_mem pair h)

theorem mem_ofPairs {pairs : List (String × α)} {entry : String × α}
    (h : entry ∈ ofPairs pairs) : entry ∈ pairs := by
  rcases mem_foldl_insert h with h | h
  · exact absurd h (by simp)
  · exact h

/-- A new key goes to the end. -/
theorem insert_of_notMem {key : String} {table : Table α} (h : key ∉ keys table) (value : α) :
    insert key value table = table ++ [(key, value)] := by
  induction table with
  | nil => rfl
  | cons entry table ih =>
    simp only [keys, List.map_cons, List.mem_cons, not_or] at h
    rw [insert, if_neg (Ne.symm h.1), ih h.2, List.cons_append]

theorem foldl_insert_of_nodup (pairs : List (String × α)) {table : Table α}
    (h : (keys (table ++ pairs)).Nodup) :
    pairs.foldl (fun table pair => table.insert pair.1 pair.2) table = table ++ pairs := by
  induction pairs generalizing table with
  | nil => simp
  | cons pair pairs ih =>
    have hnew : pair.1 ∉ keys table := by
      simp only [keys, List.map_append, List.map_cons] at h ⊢
      intro hmem
      exact (List.nodup_append.1 h).2.2 _ hmem _ List.mem_cons_self rfl
    rw [List.foldl_cons, insert_of_notMem hnew, ih (by simpa using h), List.append_assoc,
      List.singleton_append]

theorem ofPairs_eq_self {pairs : List (String × α)} (h : (keys pairs).Nodup) :
    ofPairs pairs = pairs := by
  rw [ofPairs, foldl_insert_of_nodup pairs (by simpa using h), List.nil_append]

theorem mem_keys_insert {key other : String} {value : α} {table : Table α} :
    other ∈ keys (insert key value table) ↔ other = key ∨ other ∈ keys table := by
  rw [keys_insert]
  split
  · next h =>
    constructor
    · exact Or.inr
    · rintro (rfl | hother)
      · exact h
      · exact hother
  · rw [List.mem_append, List.mem_singleton, or_comm]

theorem get?_eq_none_iff {table : Table α} {key : String} :
    table.get? key = none ↔ key ∉ keys table := by
  induction table with
  | nil => simp [get?, keys]
  | cons entry table ih =>
    rw [get?_cons]
    by_cases h : key = entry.1
    · simp [h, keys]
    · rw [if_neg h, ih]
      simp [keys, h]

theorem get?_eq_some_iff_mem {table : Table α} (h : (keys table).Nodup) {key : String}
    {value : α} : table.get? key = some value ↔ (key, value) ∈ table := by
  induction table with
  | nil => simp [get?]
  | cons entry table ih =>
    simp only [keys, List.map_cons, List.nodup_cons] at h
    rw [get?_cons]
    split
    · next heq =>
      subst heq
      constructor
      · intro hvalue
        cases hvalue
        exact List.mem_cons_self
      · intro hmem
        rcases List.mem_cons.1 hmem with heq | hmem
        · rw [← heq]
        · exact absurd (List.mem_map_of_mem (f := Prod.fst) hmem) h.1
    · next hne =>
      rw [ih h.2, List.mem_cons]
      constructor
      · exact Or.inr
      · rintro (heq | hmem)
        · exact absurd (congrArg Prod.fst heq) hne
        · exact hmem

theorem eq_of_get?_eq {left right : Table α} (hkeys : keys left = keys right)
    (hnodup : (keys left).Nodup) (h : ∀ key, left.get? key = right.get? key) : left = right := by
  induction left generalizing right with
  | nil => exact (List.map_eq_nil_iff.1 hkeys.symm).symm
  | cons entry left ih =>
    obtain ⟨other, right, rfl⟩ : ∃ other rest, right = other :: rest := by
      cases right with
      | nil => simp [keys] at hkeys
      | cons other right => exact ⟨other, right, rfl⟩
    simp only [keys, List.map_cons, List.cons.injEq, List.nodup_cons] at hkeys hnodup
    have hvalue : entry.2 = other.2 := by
      have hfirst := h entry.1
      simpa [get?_cons, hkeys.1] using hfirst
    rw [Prod.ext hkeys.1 hvalue]
    congr 1
    apply ih hkeys.2 hnodup.2
    intro key
    by_cases hkey : key = entry.1
    · have hleft : get? left key = none := get?_eq_none_iff.2 (hkey ▸ hnodup.1)
      have hright : get? right key = none :=
        get?_eq_none_iff.2 (by rw [hkey, keys, ← hkeys.2]; exact hnodup.1)
      rw [hleft, hright]
    · have hrest := h key
      rwa [get?_cons, get?_cons, if_neg hkey, if_neg (hkeys.1 ▸ hkey)] at hrest

theorem mem_keys_foldl_insert {pairs : List (String × α)} {table : Table α} {key : String} :
    key ∈ keys (pairs.foldl (fun table pair => table.insert pair.1 pair.2) table) ↔
      key ∈ keys table ∨ key ∈ keys pairs := by
  induction pairs generalizing table with
  | nil => simp [keys]
  | cons pair pairs ih =>
    rw [List.foldl_cons, ih, mem_keys_insert]
    simp only [keys, List.map_cons, List.mem_cons]
    constructor
    · rintro ((h | h) | h)
      · exact Or.inr (Or.inl h)
      · exact Or.inl h
      · exact Or.inr (Or.inr h)
    · rintro (h | h | h)
      · exact Or.inl (Or.inr h)
      · exact Or.inl (Or.inl h)
      · exact Or.inr h

/-- Writing to keys that are there already keeps the keys. -/
theorem keys_foldl_insert_of_subset {pairs : List (String × α)} {table : Table α}
    (h : ∀ key ∈ keys pairs, key ∈ keys table) :
    keys (pairs.foldl (fun table pair => table.insert pair.1 pair.2) table) = keys table := by
  induction pairs generalizing table with
  | nil => rfl
  | cons pair pairs ih =>
    have hkeys : keys (table.insert pair.1 pair.2) = keys table := by
      rw [keys_insert, if_pos (h pair.1 List.mem_cons_self)]
    rw [List.foldl_cons, ih, hkeys]
    intro key hkey
    rw [hkeys]
    exact h key (List.mem_cons_of_mem pair.1 hkey)

/-- Of a key that is written, only the last value written counts. -/
theorem get?_foldl_insert (pairs : List (String × α)) (table : Table α) (key : String) :
    (pairs.foldl (fun table pair => table.insert pair.1 pair.2) table).get? key =
      (get? pairs.reverse key).or (table.get? key) := by
  induction pairs using List.reverseRecOn with
  | nil => simp [get?]
  | append_singleton pairs pair ih =>
    rw [List.foldl_append, List.foldl_cons, List.foldl_nil, List.reverse_append,
      List.reverse_singleton, List.singleton_append, get?_cons]
    by_cases h : key = pair.1
    · rw [h, get?_insert_self, if_pos rfl, Option.some_or]
    · rw [get?_insert_of_ne _ _ h, if_neg h, ih]

/-- Writing the same pairs a second time changes nothing. -/
theorem foldl_insert_twice (pairs : List (String × α)) {table : Table α}
    (h : (keys table).Nodup) :
    pairs.foldl (fun table pair => table.insert pair.1 pair.2)
        (pairs.foldl (fun table pair => table.insert pair.1 pair.2) table) =
      pairs.foldl (fun table pair => table.insert pair.1 pair.2) table := by
  apply eq_of_get?_eq
  · exact keys_foldl_insert_of_subset fun key hkey => mem_keys_foldl_insert.2 (Or.inr hkey)
  · exact nodup_keys_foldl_insert pairs (nodup_keys_foldl_insert pairs h)
  · intro key
    rw [get?_foldl_insert, get?_foldl_insert]
    cases get? pairs.reverse key with
    | none => rfl
    | some value => rfl

theorem sameEntries_self [BEq α] [LawfulBEq α] {table : Table α} (h : (keys table).Nodup) :
    table.sameEntries table = true := by
  simp only [sameEntries, beq_self_eq_true, Bool.true_and, List.all_eq_true, beq_iff_eq]
  intro entry hentry
  exact (get?_eq_some_iff_mem h).2 hentry

end ThriftIdl.Table

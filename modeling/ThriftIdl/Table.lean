/-!
Tables with string keys that remember the order in which keys were first written. Writing a key
again keeps its place.
-/

namespace ThriftIdl

/-- Pairs of key and value, in order of the first write of each key. -/
abbrev Table (α : Type) := List (String × α)

namespace Table

variable {α : Type}

def get? (table : Table α) (key : String) : Option α := List.lookup key table

def keys (table : Table α) : List String := table.map Prod.fst

/-- The table with the key set to the value: in the key's place if it has one, else at the
end. -/
def insert (key : String) (value : α) : Table α → Table α
  | [] => [(key, value)]
  | entry :: rest =>
    if entry.1 = key then (key, value) :: rest else entry :: insert key value rest

/-- The table that pairs written one after the other leave. -/
def ofPairs (pairs : List (String × α)) : Table α :=
  pairs.foldl (fun table pair => table.insert pair.1 pair.2) []

/-- Two tables hold the same values under the same keys, whatever their order. -/
def sameEntries [BEq α] (left right : Table α) : Bool :=
  left.length == right.length &&
    left.all fun entry => right.get? entry.1 == some entry.2

theorem get?_cons (key : String) (entry : String × α) (rest : Table α) :
    get? (entry :: rest) key = if key = entry.1 then some entry.2 else rest.get? key := by
  obtain ⟨name, value⟩ := entry
  by_cases h : key = name
  · simp [get?, h]
  · have hne : (key == name) = false := by simp [h]
    simp [get?, List.lookup_cons, hne, h]

@[simp] theorem get?_insert_self (key : String) (value : α) (table : Table α) :
    (insert key value table).get? key = some value := by
  induction table with
  | nil => simp [insert, get?]
  | cons entry rest ih =>
    by_cases h : entry.1 = key
    · simp [insert, h, get?_cons]
    · simpa [insert, h, get?_cons, Ne.symm h] using ih

theorem get?_insert_of_ne {key other : String} (value : α) (table : Table α)
    (hne : other ≠ key) : (insert key value table).get? other = table.get? other := by
  induction table with
  | nil => simp [insert, get?_cons, hne]
  | cons entry rest ih =>
    by_cases h : entry.1 = key
    · simp [insert, h, get?_cons, hne]
    · simp [insert, h, get?_cons, ih]

/-- A new key comes last, and a known key leaves the keys as they are. -/
theorem keys_insert (key : String) (value : α) (table : Table α) :
    (insert key value table).keys =
      if key ∈ table.keys then table.keys else table.keys ++ [key] := by
  induction table with
  | nil => simp [insert, keys]
  | cons entry rest ih =>
    by_cases h : entry.1 = key
    · simp [insert, keys, h]
    · by_cases hmem : key ∈ keys rest
      · rw [if_pos hmem] at ih
        simp_all [insert, keys]
      · rw [if_neg hmem] at ih
        simp_all [insert, keys, Ne.symm h]

end Table

end ThriftIdl

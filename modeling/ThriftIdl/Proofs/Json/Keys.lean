import ThriftIdl.Proofs.Table
import ThriftIdl.Json.Reading

/-!
Keys in JSON values that were read: no object has a key twice, at any depth.
-/

namespace ThriftIdl.Json

/-- No object in the value has a key twice. -/
inductive Keyed : Json → Prop
  | null : Keyed null
  | bool (value : Bool) : Keyed (bool value)
  | integer (value : Int) : Keyed (integer value)
  | fractional : Keyed fractional
  | string (text : String) : Keyed (string text)
  | array {items : List Json} (hitems : ∀ item ∈ items, Keyed item) : Keyed (array items)
  | object {members : List (String × Json)} (hkeys : (Table.keys members).Nodup)
    (hmembers : ∀ member ∈ members, Keyed member.2) : Keyed (object members)

attribute [simp] Keyed.null Keyed.bool Keyed.integer Keyed.fractional Keyed.string

@[simp] theorem keyed_array_iff {items : List Json} :
    (array items).Keyed ↔ ∀ item ∈ items, item.Keyed := by
  constructor
  · rintro ⟨⟩
    assumption
  · exact .array

@[simp] theorem keyed_object_iff {members : List (String × Json)} :
    (object members).Keyed ↔
      (Table.keys members).Nodup ∧ ∀ member ∈ members, member.2.Keyed := by
  constructor
  · rintro ⟨⟩
    constructor
    · assumption
    · assumption
  · exact fun h => .object h.1 h.2

theorem keyed_of_value? {number : Numeral} {value : Json} (h : number.value? = some value) :
    Keyed value := by
  simp only [Numeral.value?] at h
  split at h
  · cases h
    exact .integer _
  · split at h
    · cases h
    · cases h
      exact .fractional

theorem keyed_of_readNumber {text rest : List Char} {value : Json}
    (h : readNumber text = some (value, rest)) : Keyed value := by
  unfold readNumber at h
  split at h
  · obtain ⟨⟨number, after⟩, _, h⟩ := Option.bind_eq_some_iff.1 h
    obtain ⟨result, hvalue, h⟩ := Option.bind_eq_some_iff.1 h
    cases h
    exact keyed_of_value? hvalue
  · obtain ⟨⟨number, after⟩, _, h⟩ := Option.bind_eq_some_iff.1 h
    obtain ⟨result, hvalue, h⟩ := Option.bind_eq_some_iff.1 h
    cases h
    exact keyed_of_value? hvalue

/-- What reading with some fuel gives has its keys apart. -/
def ReadsKeyed (fuel : Nat) : Prop :=
  (∀ {depth text value rest}, readValue fuel depth text = some (value, rest) → Keyed value) ∧
    (∀ {depth text items rest}, readItems fuel depth text = some (items, rest) →
      ∀ item ∈ items, Keyed item) ∧
    ∀ {depth text members rest}, readMembers fuel depth text = some (members, rest) →
      ∀ member ∈ members, Keyed member.2

theorem keyed_readValue {fuel : Nat} (ih : ReadsKeyed fuel) {depth : Nat} {text rest : List Char}
    {value : Json} (h : readValue (fuel + 1) depth text = some (value, rest)) : Keyed value := by
  rw [readValue] at h
  split at h
  · cases h
  · obtain ⟨pair, _, h⟩ := Option.map_eq_some_iff.1 h
    cases h
    exact .string _
  · split at h
    · cases h
    · split at h
      · cases h
        exact .array (by simp)
      · obtain ⟨⟨items, after⟩, hitems, h⟩ := Option.map_eq_some_iff.1 h
        cases h
        exact .array (ih.2.1 hitems)
  · split at h
    · cases h
    · split at h
      · cases h
        exact .object (by simp [Table.keys]) (by simp)
      · obtain ⟨⟨members, after⟩, hmembers, h⟩ := Option.map_eq_some_iff.1 h
        cases h
        refine .object (Table.nodup_keys_ofPairs members) ?_
        intro member hmember
        exact ih.2.2 hmembers member (Table.mem_ofPairs hmember)
  · obtain ⟨after, _, h⟩ := Option.map_eq_some_iff.1 h
    cases h
    exact .null
  · obtain ⟨after, _, h⟩ := Option.map_eq_some_iff.1 h
    cases h
    exact .bool true
  · obtain ⟨after, _, h⟩ := Option.map_eq_some_iff.1 h
    cases h
    exact .bool false
  · exact keyed_of_readNumber h

theorem keyed_readItems {fuel : Nat} (ih : ReadsKeyed fuel) {depth : Nat} {text rest : List Char}
    {items : List Json} (h : readItems (fuel + 1) depth text = some (items, rest)) :
    ∀ item ∈ items, Keyed item := by
  rw [readItems] at h
  obtain ⟨⟨first, after⟩, hfirst, h⟩ := Option.bind_eq_some_iff.1 h
  dsimp only at h
  split at h
  · obtain ⟨⟨more, last⟩, hmore, h⟩ := Option.bind_eq_some_iff.1 h
    cases h
    intro item hitem
    rcases List.mem_cons.1 hitem with rfl | hitem
    · exact ih.1 hfirst
    · exact ih.2.1 hmore item hitem
  · cases h
    intro item hitem
    rw [List.mem_singleton] at hitem
    exact hitem ▸ ih.1 hfirst
  · cases h

theorem keyed_readMembers {fuel : Nat} (ih : ReadsKeyed fuel) {depth : Nat}
    {text rest : List Char} {members : List (String × Json)}
    (h : readMembers (fuel + 1) depth text = some (members, rest)) :
    ∀ member ∈ members, Keyed member.2 := by
  rw [readMembers] at h
  split at h
  · obtain ⟨⟨key, after⟩, _, h⟩ := Option.bind_eq_some_iff.1 h
    dsimp only at h
    split at h
    · obtain ⟨⟨first, after⟩, hfirst, h⟩ := Option.bind_eq_some_iff.1 h
      dsimp only at h
      split at h
      · obtain ⟨⟨more, last⟩, hmore, h⟩ := Option.bind_eq_some_iff.1 h
        cases h
        intro member hmember
        rcases List.mem_cons.1 hmember with rfl | hmember
        · exact ih.1 hfirst
        · exact ih.2.2 hmore member hmember
      · cases h
        intro member hmember
        rw [List.mem_singleton] at hmember
        exact hmember ▸ ih.1 hfirst
      · cases h
    · cases h
  · cases h

theorem readsKeyed (fuel : Nat) : ReadsKeyed fuel := by
  induction fuel with
  | zero =>
    refine ⟨?_, ?_, ?_⟩
    · intro depth text value rest h
      cases h
    · intro depth text items rest h
      cases h
    · intro depth text members rest h
      cases h
  | succ fuel ih => exact ⟨keyed_readValue ih, keyed_readItems ih, keyed_readMembers ih⟩

theorem keyed_of_ofText? {text : String} {value : Json} (h : ofText? text = some value) :
    Keyed value := by
  simp only [ofText?] at h
  split at h
  · next hread =>
    split at h
    · cases h
      exact (readsKeyed _).1 hread
    · cases h
  · cases h

end ThriftIdl.Json

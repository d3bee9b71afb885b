import Mathlib.Data.List.Nodup

/-!
Looking up an item by its name. Among items with names apart, the one found is the one with the
name.
-/

namespace ThriftIdl.Lookup

variable {α κ : Type} {items : List α} {key : α → κ} {item : α}

theorem nodup_append_singleton : (items ++ [item]).Nodup ↔ items.Nodup ∧ item ∉ items := by
  rw [← List.concat_eq_append, List.nodup_concat, and_comm]

/-- One more item keeps keys apart exactly if its key is new. -/
theorem nodup_map_append_singleton :
    ((items ++ [item]).map key).Nodup ↔ (items.map key).Nodup ∧ key item ∉ items.map key := by
  rw [List.map_append, List.map_singleton, nodup_append_singleton]

variable [BEq κ] [LawfulBEq κ] {name : κ}

theorem find?_eq_none_iff :
    items.find? (key · == name) = none ↔ name ∉ items.map key := by
  simp [List.find?_eq_none]

theorem mem_of_find? (h : items.find? (key · == name) = some item) :
    item ∈ items ∧ key item = name := by
  have hname := List.find?_some h
  exact ⟨List.mem_of_find?_eq_some h, beq_iff_eq.1 hname⟩

theorem find?_eq_some_iff (h : (items.map key).Nodup) :
    items.find? (key · == name) = some item ↔ item ∈ items ∧ key item = name := by
  constructor
  · exact mem_of_find?
  · rintro ⟨hitem, hname⟩
    cases hfound : items.find? (key · == name) with
    | none => exact absurd (hname ▸ List.mem_map_of_mem hitem) (find?_eq_none_iff.1 hfound)
    | some found =>
      obtain ⟨hmem, hfoundName⟩ := mem_of_find? hfound
      rw [List.inj_on_of_nodup_map h hmem hitem (hfoundName.trans hname.symm)]

/-- Among items with names apart, the one found does not depend on their order. -/
theorem find?_eq_of_perm {left right : List α} (hperm : left.Perm right)
    (h : (left.map key).Nodup) (name : κ) :
    left.find? (key · == name) = right.find? (key · == name) := by
  apply Option.ext
  intro item
  rw [find?_eq_some_iff h, find?_eq_some_iff ((hperm.map key).nodup_iff.1 h), hperm.mem_iff]

end ThriftIdl.Lookup

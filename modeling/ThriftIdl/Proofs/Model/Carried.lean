import ThriftIdl.Proofs.Json.RoundTrip
import ThriftIdl.Proofs.Model.RoundTrip

/-!
What is written for a portable model is JSON that text carries: its numbers have 64 bits, no object
has a key twice, and it nests nine deep.
-/

namespace ThriftIdl

open Json (Carried)

theorem carried_line {depth line : Nat} (h : line < Text.wordSize) :
    Carried depth (.ofNat line) := by
  apply Carried.integer
  have hword : Text.wordSize = 2 ^ 64 := rfl
  constructor
  · omega
  · omega

theorem carried_int16 {depth : Nat} (value : Int16) : Carried depth (.integer value.toInt) := by
  apply Carried.integer
  have hlow := value.le_toInt
  have hhigh := value.toInt_lt
  constructor
  · omega
  · omega

theorem carried_int32 {depth : Nat} (value : Int32) : Carried depth (.integer value.toInt) := by
  apply Carried.integer
  have hlow := value.le_toInt
  have hhigh := value.toInt_lt
  constructor
  · omega
  · omega

theorem carried_map {α : Type} {depth : Nat} {f : α → Json} {items : List α}
    (h : ∀ item ∈ items, Carried depth (f item)) :
    Carried (depth + 1) (.array (items.map f)) := by
  apply Carried.array
  intro json hjson
  obtain ⟨item, hitem, rfl⟩ := List.mem_map.1 hjson
  exact h item hitem

theorem carried_strings (depth : Nat) (texts : List String) :
    Carried (depth + 1) (.array (texts.map Json.string)) :=
  carried_map fun text _ => .string text

/-- An object with a member for each item, under its name. -/
theorem carried_named {α : Type} {depth : Nat} (key : α → String) {f : α → Json}
    {items : List α} (hkeys : (items.map key).Nodup)
    (h : ∀ item ∈ items, Carried depth (f item)) :
    Carried (depth + 1) (.object (items.map fun item => (key item, f item))) := by
  apply Carried.object
  · rwa [Table.keys, List.map_map]
  · intro member hmember
    obtain ⟨item, hitem, rfl⟩ := List.mem_map.1 hmember
    exact h item hitem

theorem EnumValue.carried_toJson {value : EnumValue} (h : value.line < Text.wordSize)
    (depth : Nat) : Carried (depth + 1) value.toJson := by
  apply Carried.object
  · simp [Table.keys]
  · simp only [List.forall_mem_cons]
    exact ⟨.string _, carried_int32 _, .bool _, carried_line h, by simp⟩

theorem carried_optional (depth : Nat) (key : String) (text? : Option String) :
    ∀ member ∈ Json.optional key text?, Carried depth member.2 := by
  intro member hmember
  obtain ⟨text, -, rfl⟩ := List.mem_map.1 hmember
  exact .string text

theorem Field.carried_toJson {field : Field} (h : field.line < Text.wordSize)
    (depth : Nat) : Carried (depth + 1) field.toJson := by
  apply Carried.object
  · rcases field.default? with _ | text
    · simp [Table.keys, Json.optional]
    · simp [Table.keys, Json.optional]
  · simp only [List.forall_mem_append, List.forall_mem_cons]
    exact ⟨⟨⟨carried_int16 _, .string _, .string _, .string _, by simp⟩,
      carried_optional depth _ _⟩, carried_line h, by simp⟩

theorem carried_fields {fields : List Field}
    (h : ∀ line ∈ fields.map (·.line), line < Text.wordSize) (depth : Nat) :
    Carried (depth + 2) (.array (fields.map Field.toJson)) := by
  apply carried_map
  intro field hfield
  exact field.carried_toJson (h field.line (List.mem_map_of_mem hfield)) depth

theorem Function.carried_toJson {function : Function}
    (h : ∀ line ∈ function.lines, line < Text.wordSize) (depth : Nat) :
    Carried (depth + 3) function.toJson := by
  simp only [Function.lines, List.forall_mem_cons, List.map_append, List.forall_mem_append] at h
  apply Carried.object
  · simp [Table.keys]
  · simp only [List.forall_mem_cons]
    exact ⟨.string _, .string _, .bool _, carried_fields h.2.1 depth, carried_fields h.2.2 depth,
      carried_line h.1, by simp⟩

theorem Body.carried_toMembers {body : Body} (h : ∀ line ∈ body.lines, line < Text.wordSize)
    (depth : Nat) : ∀ member ∈ body.toMembers, Carried (depth + 4) member.2 := by
  rcases body with _ | _ | values | texts | fields | fields | ⟨base?, functions⟩
  · simp only [toMembers, List.forall_mem_cons]
    exact ⟨.string _, .string _, by simp⟩
  · simp only [toMembers, List.forall_mem_cons]
    exact ⟨.string _, by simp⟩
  · simp only [toMembers, List.forall_mem_cons]
    refine ⟨carried_map ?_, by simp⟩
    intro value hvalue
    exact value.carried_toJson (h value.line (List.mem_map_of_mem hvalue)) (depth + 2)
  · simp only [toMembers, List.forall_mem_cons]
    exact ⟨carried_strings _ _, by simp⟩
  · simp only [toMembers, List.forall_mem_cons]
    exact ⟨carried_fields h (depth + 2), by simp⟩
  · simp only [toMembers, List.forall_mem_cons]
    exact ⟨carried_fields h (depth + 2), by simp⟩
  · simp only [toMembers, List.forall_mem_append, List.forall_mem_cons]
    refine ⟨carried_optional _ _ _, carried_map ?_, by simp⟩
    intro function hfunction
    apply function.carried_toJson
    intro line hline
    exact h line (List.mem_flatMap.2 ⟨function, hfunction, hline⟩)

theorem Definition.carried_toJson {definition : Definition} (h : definition.Portable)
    (depth : Nat) : Carried (depth + 5) definition.toJson := by
  apply Carried.object
  · rcases definition.body with _ | _ | _ | _ | _ | _ | ⟨base?, functions⟩
    · simp [Table.keys, Body.toMembers]
    · simp [Table.keys, Body.toMembers]
    · simp [Table.keys, Body.toMembers]
    · simp [Table.keys, Body.toMembers]
    · simp [Table.keys, Body.toMembers]
    · simp [Table.keys, Body.toMembers]
    · rcases base? with _ | base
      · simp [Table.keys, Body.toMembers, Json.optional]
      · simp [Table.keys, Body.toMembers, Json.optional]
  · simp only [List.forall_mem_append, List.forall_mem_cons]
    exact ⟨⟨.string _, .string _, carried_line h.line, by simp⟩,
      Body.carried_toMembers h.body.lines depth⟩

theorem Document.carried_toJson {document : Document} (hkeys : document.namespaces.keys.Nodup)
    (h : ∀ definition ∈ document.definitions, definition.Portable) (depth : Nat) :
    Carried (depth + 7) document.toJson := by
  apply Carried.object
  · simp [Table.keys]
  · simp only [List.forall_mem_cons]
    refine ⟨carried_named Prod.fst hkeys fun entry _ => .string entry.2, carried_strings _ _,
      carried_map ?_, by simp⟩
    intro definition hdefinition
    exact definition.carried_toJson (h definition hdefinition) depth

theorem Namespace.carried_toJson (space : Namespace) (depth : Nat) :
    Carried (depth + 3) space.toJson := by
  rw [toJson]
  apply carried_named fun group : Kind × List Reference => group.1.word
  · have hkinds : Kind.all.Nodup := by decide
    have hgroups : (space.groups.map (·.1)).Nodup := by
      have hall : ((Kind.all.map fun kind => (kind, space.referencesOf kind)).map (·.1)) =
          Kind.all := by
        rw [List.map_map]
        exact List.map_id _
      have hsublist := List.filter_sublist (p := fun group => !group.2.isEmpty)
        (l := Kind.all.map fun kind => (kind, space.referencesOf kind))
      have hmap := hsublist.map (·.1)
      rw [hall] at hmap
      exact hmap.nodup hkinds
    have hwords := hgroups.map fun _ _ => Kind.word_injective
    rwa [List.map_map] at hwords
  · intro group _
    apply carried_map
    intro reference _
    apply Carried.object
    · simp [Table.keys]
    · simp only [List.forall_mem_cons]
      exact ⟨.string _, .string _, by simp⟩

theorem Target.carried_toJson {target : Target}
    (h : (target.namespaces.map (·.name)).Nodup) (depth : Nat) :
    Carried (depth + 4) target.toJson :=
  carried_named Namespace.name h fun space _ => space.carried_toJson depth

/-- Text carries what is written for a portable model. -/
theorem Model.carried_toJson {model : Model} (h : model.Portable) :
    Carried Json.maxDepth model.toJson := by
  change Carried (118 + 9) model.toJson
  apply Carried.object
  · simp [Table.keys]
  · simp only [List.forall_mem_cons]
    refine ⟨.bool _, carried_named Document.name h.nodup_documents ?_,
      carried_named Target.name h.nodup_targets ?_, by simp⟩
    · intro document hdocument
      have hportable := h.documents document hdocument
      exact document.carried_toJson hportable.nodup_keys hportable.definitions 118
    · intro target htarget
      exact target.carried_toJson (h.targets target htarget).nodup_names 121

end ThriftIdl

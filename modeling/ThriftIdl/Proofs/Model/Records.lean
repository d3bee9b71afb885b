import ThriftIdl.Proofs.Model.Written

/-!
Definitions in a model's text. A definition is portable if its lines fit a word and its functions do
not name a type `void`. Just such definitions are written by objects, and a portable one is written
by what is made of it.
-/

namespace ThriftIdl

/-- The lines of a function: its own and those of its parameters and exceptions. -/
def Function.lines (function : Function) : List Nat :=
  function.line :: (function.params ++ function.throws).map (·.line)

/-- The lines of the members. -/
def Body.lines : Body → List Nat
  | const .. => []
  | typedef .. => []
  | enum values => values.map (·.line)
  | senum .. => []
  | struct fields => fields.map (·.line)
  | exception fields => fields.map (·.line)
  | service _ functions => functions.flatMap Function.lines

/-- The lines of the definition: that of its name and those of its members. -/
def Definition.lines (definition : Definition) : List Nat :=
  definition.line :: definition.body.lines

/-- The functions of a service. -/
def Body.functions : Body → List Function
  | service _ functions => functions
  | _ => []

/-- All lines of the body fit a word, and no function names a type `void`. -/
structure Body.Portable (body : Body) : Prop where
  lines : ∀ line ∈ body.lines, line < Text.wordSize
  types : ∀ function ∈ body.functions, function.returnType? ≠ some voidWord

/-- The definition's text has room for its lines and types. -/
structure Definition.Portable (definition : Definition) : Prop where
  line : definition.line < Text.wordSize
  body : definition.body.Portable

variable {json : Json}

theorem EnumValue.written_toJson {value : EnumValue} (h : value.line < Text.wordSize) :
    value.Written value.toJson :=
  ⟨rfl, rfl, rfl, rfl, h⟩

theorem Field.written_toJson {field : Field} (h : field.line < Text.wordSize) :
    field.Written field.toJson := by
  obtain ⟨id, requiredness, type, name, default?, line⟩ := field
  cases default? with
  | none => exact ⟨rfl, rfl, rfl, rfl, rfl, rfl, h⟩
  | some text => exact ⟨rfl, rfl, rfl, rfl, rfl, rfl, h⟩

theorem Field.lists_toJson {fields : List Field}
    (h : ∀ line ∈ fields.map (·.line), line < Text.wordSize) :
    (Json.array (fields.map Field.toJson)).Lists Field.Written fields :=
  Json.lists_map fun field hfield =>
    field.written_toJson (h field.line (List.mem_map_of_mem hfield))

theorem Field.lines_fit {fields : List Field} (h : json.Lists Field.Written fields) :
    ∀ line ∈ fields.map (·.line), line < Text.wordSize :=
  List.forall_mem_map.2 (h.forall_mem fun _ _ hwritten => hwritten.fits)

theorem Function.written_toJson {function : Function}
    (hlines : ∀ line ∈ function.lines, line < Text.wordSize)
    (htype : function.returnType? ≠ some voidWord) : function.Written function.toJson := by
  simp only [Function.lines, List.forall_mem_cons, List.map_append, List.forall_mem_append]
    at hlines
  obtain ⟨hline, hparams, hthrows⟩ := hlines
  exact ⟨rfl, rfl, htype, rfl, Field.lists_toJson hparams, Field.lists_toJson hthrows, rfl, hline⟩

theorem Function.Written.lines_fit {function : Function} (h : function.Written json) :
    ∀ line ∈ function.lines, line < Text.wordSize := by
  simp only [Function.lines, List.forall_mem_cons, List.map_append, List.forall_mem_append]
  exact ⟨h.fits, Field.lines_fit h.params, Field.lines_fit h.throws⟩

/-- Behind members with other keys, a body writes itself by what it adds to them. -/
theorem Body.written_toMembers {body : Body} (h : body.Portable) (kind name line : Json) :
    body.Written (.object ([("kind", kind), ("identifier", name), ("line", line)] ++
      body.toMembers)) := by
  cases body with
  | const type value => exact ⟨rfl, rfl⟩
  | typedef type => rfl
  | enum values =>
    exact Json.lists_map fun value hvalue =>
      value.written_toJson (h.lines value.line (List.mem_map_of_mem hvalue))
  | senum values => rfl
  | struct fields => exact Field.lists_toJson h.lines
  | exception fields => exact Field.lists_toJson h.lines
  | service base? functions =>
    have hfunctions : (Json.array (functions.map Function.toJson)).Lists Function.Written
        functions := by
      apply Json.lists_map
      intro function hfunction
      apply Function.written_toJson
      · intro line hline
        exact h.lines line (List.mem_flatMap.2 ⟨function, hfunction, hline⟩)
      · exact h.types function hfunction
    cases base? with
    | none => exact ⟨rfl, hfunctions⟩
    | some base => exact ⟨rfl, hfunctions⟩

theorem Body.Written.portable {body : Body} (h : body.Written json) : body.Portable := by
  cases body with
  | const type value => exact ⟨by simp [Body.lines], by simp [Body.functions]⟩
  | typedef type => exact ⟨by simp [Body.lines], by simp [Body.functions]⟩
  | enum values =>
    exact ⟨List.forall_mem_map.2 (Json.Lists.forall_mem h fun _ _ hwritten => hwritten.fits),
      by simp [Body.functions]⟩
  | senum values => exact ⟨by simp [Body.lines], by simp [Body.functions]⟩
  | struct fields => exact ⟨Field.lines_fit h, by simp [Body.functions]⟩
  | exception fields => exact ⟨Field.lines_fit h, by simp [Body.functions]⟩
  | service base? functions =>
    constructor
    · simp only [Body.lines, List.forall_mem_flatMap]
      exact h.2.forall_mem fun _ _ hwritten => hwritten.lines_fit
    · exact h.2.forall_mem fun _ _ hwritten => hwritten.named

theorem Definition.written_toJson {definition : Definition} (h : definition.Portable) :
    definition.Written definition.toJson :=
  ⟨rfl, rfl, rfl, h.line, Body.written_toMembers h.body _ _ _⟩

theorem Definition.Written.portable {definition : Definition} (h : definition.Written json) :
    definition.Portable :=
  ⟨h.fits, h.body.portable⟩

end ThriftIdl

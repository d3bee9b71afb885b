import ThriftIdl.Model.Decoding
import ThriftIdl.Proofs.Json.Keys
import ThriftIdl.Proofs.Steps
import ThriftIdl.Proofs.Text.Integer

/-!
What JSON writes definitions. A record of a model is written by an object that holds what the record
says under the right keys, in any order and among any others; reading succeeds on such objects and
on no others.
-/

namespace ThriftIdl

namespace Json

/-- The members of an object. Other values have none. -/
def entries : Json → List (String × Json)
  | object members => members
  | _ => []

/-- The items of an array. Other values have none. -/
def items : Json → List Json
  | array items => items
  | _ => []

/-- The member of an object with the key, if there is one. -/
def find? (json : Json) (key : String) : Option Json := member? json.entries key

/-- The member of an object with the key, or null. -/
def under (json : Json) (key : String) : Json := (json.find? key).getD null

/-- The array that writes the values, item by item. -/
def Lists {α : Type} (written : α → Json → Prop) (json : Json) (values : List α) : Prop :=
  ∃ items, json = .array items ∧ List.Forall₂ (fun item value => written value item) items values

/-- What the items hold under the key, item by item. -/
def column (key : String) (items : List Json) : List Json := items.map (·.under key)

variable {json value : Json} {key : String}

theorem under_eq_iff (hvalue : value ≠ null) :
    json.under key = value ↔ json.find? key = some value := by
  rw [under]
  cases json.find? key with
  | none => simpa using hvalue.symm
  | some found => simp

theorem under_string {text : String} :
    json.under key = .string text ↔ json.find? key = some (.string text) :=
  under_eq_iff (by simp)

/-- What has a member is an object. -/
theorem exists_object (h : json.find? key = some value) :
    ∃ members, json = .object members := by
  cases json with
  | object members => exact ⟨members, rfl⟩
  | _ => cases h

theorem Keyed.under {json : Json} (h : json.Keyed) (key : String) : (json.under key).Keyed := by
  rw [Json.under]
  cases hfound : json.find? key with
  | none => exact .null
  | some value =>
    obtain ⟨members, rfl⟩ := exists_object hfound
    obtain ⟨before, after, heq, -⟩ := List.lookup_eq_some_iff.1 hfound
    cases h with
    | object _ hmembers => exact hmembers (key, value) (by simp [show members = _ from heq])

theorem Keyed.nodup_keys {json : Json} (h : json.Keyed) : (Table.keys json.entries).Nodup := by
  cases h with
  | object hkeys => exact hkeys
  | _ => exact List.nodup_nil

theorem Keyed.entry {json : Json} (h : json.Keyed) {entry : String × Json}
    (hentry : entry ∈ json.entries) : entry.2.Keyed := by
  cases h with
  | object _ hmembers => exact hmembers entry hentry
  | _ => cases hentry

/-- What is true of every value that an item writes is true of all values that are listed. -/
theorem Lists.forall_mem {α : Type} {written : α → Json → Prop} {values : List α} {P : α → Prop}
    (h : json.Lists written values) (hP : ∀ item value, written value item → P value) :
    ∀ value ∈ values, P value := by
  obtain ⟨items, -, hitems⟩ := h
  intro value hvalue
  obtain ⟨item, -, hwritten⟩ := Steps.exists_right_of_forall₂ hitems.flip hvalue
  exact hP item value hwritten

theorem lists_map {α : Type} {written : α → Json → Prop} {write : α → Json} {values : List α}
    (h : ∀ value ∈ values, written value (write value)) :
    (array (values.map write)).Lists written values :=
  ⟨_, rfl, List.forall₂_map_left_iff.2 (List.forall₂_same.2 h)⟩

/-- Items that write values repeat something under a key exactly if the values do. -/
theorem nodup_column_iff {α β : Type} {written : α → Json → Prop} {read : α → β} {write : β → Json}
    (hwrite : Function.Injective write)
    (h : ∀ item value, written value item → item.under key = write (read value))
    {items : List Json} {values : List α}
    (hall : List.Forall₂ (fun item value => written value item) items values) :
    (column key items).Nodup ↔ (values.map read).Nodup := by
  have hcolumn : values.map (write ∘ read) = items.map (·.under key) :=
    Steps.map_eq_of_forall₂ hall fun item value hwritten => (h item value hwritten).symm
  rw [column, ← hcolumn, ← List.map_map, List.nodup_map_iff hwrite]

theorem string_injective : Function.Injective string := fun _ _ => string.inj

end Json

/-- The object writes the value of an enum. -/
structure EnumValue.Written (value : EnumValue) (json : Json) : Prop where
  name : json.under "name" = .string value.name
  number : json.under "value" = .integer value.value.toInt
  explicit : json.under "explicit" = .bool value.explicit
  line : json.under "line" = .ofNat value.line
  fits : value.line < Text.wordSize

/-- The object writes the field. Without a default it has no such member. -/
structure Field.Written (field : Field) (json : Json) : Prop where
  id : json.under "id" = .integer field.id.toInt
  requiredness : json.under "requiredness" = .string field.requiredness.word
  type : json.under "type" = .string field.type
  name : json.under "name" = .string field.name
  default : json.find? "default" = field.default?.map .string
  line : json.under "line" = .ofNat field.line
  fits : field.line < Text.wordSize

/-- The object writes the function. One that returns nothing has the type `void`. -/
structure Function.Written (function : Function) (json : Json) : Prop where
  name : json.under "name" = .string function.name
  returnType : json.under "returnType" = .string (function.returnType?.getD voidWord)
  named : function.returnType? ≠ some voidWord
  oneway : json.under "oneway" = .bool function.oneway
  params : (json.under "params").Lists Field.Written function.params
  throws : (json.under "throws").Lists Field.Written function.throws
  line : json.under "line" = .ofNat function.line
  fits : function.line < Text.wordSize

/-- The object of a definition writes its body. -/
def Body.Written (json : Json) : Body → Prop
  | const type value => json.under "type" = .string type ∧ json.under "value" = .string value
  | typedef type => json.under "type" = .string type
  | enum values => (json.under "values").Lists EnumValue.Written values
  | senum values => json.under "values" = .array (values.map .string)
  | struct fields => (json.under "fields").Lists Field.Written fields
  | exception fields => (json.under "fields").Lists Field.Written fields
  | service base? functions =>
    json.find? "extends" = base?.map .string ∧
      (json.under "functions").Lists Function.Written functions

/-- The object writes the definition. -/
structure Definition.Written (definition : Definition) (json : Json) : Prop where
  kind : json.under "kind" = .string definition.kind.word
  name : json.under "identifier" = .string definition.name
  line : json.under "line" = .ofNat definition.line
  fits : definition.line < Text.wordSize
  body : definition.body.Written json

namespace Decoding

variable {json : Json} {members : List (String × Json)} {key : String}

theorem asObject_eq_ok_iff {what : String} :
    asObject what json = .ok members ↔ json = .object members := by
  cases json with
  | object => simp [asObject]
  | _ => simp [asObject, refuse]

theorem asArray_eq_ok_iff {what : String} {items : List Json} :
    asArray what json = .ok items ↔ json = .array items := by
  cases json with
  | array => simp [asArray]
  | _ => simp [asArray, refuse]

theorem asString_eq_ok_iff {what text : String} :
    asString what json = .ok text ↔ json = .string text := by
  cases json with
  | string => simp [asString]
  | _ => simp [asString, refuse]

theorem asBool_eq_ok_iff {what : String} {value : Bool} :
    asBool what json = .ok value ↔ json = .bool value := by
  cases json with
  | bool => simp [asBool]
  | _ => simp [asBool, refuse]

theorem get_eq_ok_iff :
    get members key = .ok json ↔ (Json.object members).find? key = some json := by
  change _ ↔ Json.member? members key = some json
  rw [get]
  cases Json.member? members key with
  | none => simp [refuse]
  | some value => simp

/-- A member that must be there, and what is made of it. -/
theorem get_bind_eq_ok_iff {α : Type} {f : Json → Decoded α} {result : α}
    (hnull : f .null ≠ .ok result) :
    (get members key >>= f) = .ok result ↔ f ((Json.object members).under key) = .ok result := by
  rw [Steps.bind_eq_ok, Json.under]
  simp only [get_eq_ok_iff]
  cases (Json.object members).find? key with
  | none => simpa using hnull
  | some value => simp

theorem stringAt_eq_ok_iff {text : String} :
    stringAt members key = .ok text ↔ (Json.object members).under key = .string text := by
  rw [stringAt, get_bind_eq_ok_iff (by simp [asString_eq_ok_iff]), asString_eq_ok_iff]

theorem boolAt_eq_ok_iff {value : Bool} :
    boolAt members key = .ok value ↔ (Json.object members).under key = .bool value := by
  rw [boolAt, get_bind_eq_ok_iff (by simp [asBool_eq_ok_iff]), asBool_eq_ok_iff]

theorem arrayAt_eq_ok_iff {items : List Json} :
    arrayAt members key = .ok items ↔ (Json.object members).under key = .array items := by
  rw [arrayAt, get_bind_eq_ok_iff (by simp [asArray_eq_ok_iff]), asArray_eq_ok_iff]

theorem optionalAt_eq_ok_iff {text? : Option String} :
    optionalAt members key = .ok text? ↔
      (Json.object members).find? key = text?.map .string := by
  change _ ↔ Json.member? members key = text?.map .string
  rw [optionalAt]
  cases Json.member? members key with
  | none => cases text? <;> simp
  | some value => cases value <;> cases text? <;> simp [asString, refuse, Except.map, eq_comm]

theorem lineAt_eq_ok_iff {line : Nat} :
    lineAt members = .ok line ↔
      (Json.object members).under "line" = .ofNat line ∧ line < Text.wordSize := by
  rw [lineAt, get_bind_eq_ok_iff (by simp [refuse])]
  split
  · split
    · simp [Json.ofNat, *]
      omega
    · simp [Json.ofNat, refuse, *]
      omega
  · next hother =>
    simp only [refuse, reduceCtorEq, false_iff, not_and]
    intro hline
    exact absurd hline (hother line)

theorem narrowed_eq_ok_iff {α : Type} {narrow? : Int → Option α} {complaint : Complaint}
    {value : α} :
    narrowed narrow? complaint json = .ok value ↔
      ∃ number, json = .integer number ∧ narrow? number = some value := by
  cases json with
  | integer number =>
    rw [narrowed]
    split
    · next hsome => simp [hsome]
    · next hnone => simp [refuse, hnone]
  | _ => simp [narrowed, refuse]

theorem requiredness_eq_ok_iff {word : String} {value : Requiredness} :
    requiredness word = .ok value ↔ word = value.word := by
  rw [requiredness]
  constructor
  · intro h
    split at h
    · next hword =>
      cases h
      have hfound := List.find?_some hword
      exact (beq_iff_eq.1 hfound).symm
    · cases h
  · rintro rfl
    rw [Requiredness.ofWord?_eq_some_iff.2 rfl]

theorem kind_eq_ok_iff {word : String} {value : Kind} :
    kind word = .ok value ↔ word = value.word := by
  rw [kind]
  constructor
  · intro h
    split at h
    · next hword =>
      cases h
      exact (Kind.ofWord?_eq_some_iff.1 hword).symm
    · cases h
  · rintro rfl
    rw [Kind.ofWord?_eq_some_iff.2 rfl]

/-- Reading the items one by one gives the values that they write. -/
theorem mapM_eq_ok_iff_forall₂ {α : Type} {read : Json → Decoded α} {written : α → Json → Prop}
    (h : ∀ {item value}, read item = .ok value ↔ written value item) {items : List Json}
    {values : List α} :
    items.mapM read = .ok values ↔
      List.Forall₂ (fun item value => written value item) items values := by
  simp only [Steps.mapM_eq_ok_iff, h]

theorem mapM_asString_eq_ok_iff {what : String} {items : List Json} {texts : List String} :
    items.mapM (asString what) = .ok texts ↔ items = texts.map .string := by
  rw [mapM_eq_ok_iff_forall₂ asString_eq_ok_iff, ← List.forall₂_map_right_iff,
    List.forall₂_eq_eq_eq]

theorem enumValue_eq_ok_iff {value : EnumValue} :
    enumValue json = .ok value ↔ value.Written json := by
  simp only [enumValue, Steps.bind_eq_ok, Steps.pure_eq_ok, asObject_eq_ok_iff, get_eq_ok_iff,
    narrowed_eq_ok_iff, Text.int32?_eq_some_iff, stringAt_eq_ok_iff, boolAt_eq_ok_iff,
    lineAt_eq_ok_iff]
  constructor
  · rintro ⟨members, rfl, _, hget, number, ⟨_, rfl, rfl⟩, name, hname, explicit, hexplicit, line,
      ⟨hline, hfits⟩, rfl⟩
    exact ⟨hname, (Json.under_eq_iff (by simp)).2 hget, hexplicit, hline, hfits⟩
  · intro h
    obtain ⟨members, rfl⟩ := Json.exists_object (Json.under_string.1 h.name)
    exact ⟨members, rfl, _, (Json.under_eq_iff (by simp)).1 h.number, value.value, ⟨_, rfl, rfl⟩,
      value.name, h.name, value.explicit, h.explicit, value.line, ⟨h.line, h.fits⟩, rfl⟩

theorem field_eq_ok_iff {value : Field} : field json = .ok value ↔ value.Written json := by
  simp only [field, Steps.bind_eq_ok, Steps.pure_eq_ok, asObject_eq_ok_iff, get_eq_ok_iff,
    narrowed_eq_ok_iff, Text.int16?_eq_some_iff, stringAt_eq_ok_iff, requiredness_eq_ok_iff,
    optionalAt_eq_ok_iff, lineAt_eq_ok_iff]
  constructor
  · rintro ⟨members, rfl, _, hget, id, ⟨_, rfl, rfl⟩, _, hrequiredness, requiredness, rfl, default?,
      hdefault, type, htype, name, hname, line, ⟨hline, hfits⟩, rfl⟩
    exact ⟨(Json.under_eq_iff (by simp)).2 hget, hrequiredness, htype, hname, hdefault, hline,
      hfits⟩
  · intro h
    obtain ⟨members, rfl⟩ := Json.exists_object (Json.under_string.1 h.name)
    exact ⟨members, rfl, _, (Json.under_eq_iff (by simp)).1 h.id, value.id, ⟨_, rfl, rfl⟩, _,
      h.requiredness, value.requiredness, rfl, value.default?, h.default, value.type, h.type,
      value.name, h.name, value.line, ⟨h.line, h.fits⟩, rfl⟩

theorem fieldsAt_eq_ok_iff {fields : List Field} :
    fieldsAt members key = .ok fields ↔
      ((Json.object members).under key).Lists Field.Written fields := by
  have hnull : ∀ fields : List Field,
      (asArray "fields" .null >>= fun items => items.mapM field) ≠ .ok fields := by
    intro fields h
    cases h
  rw [fieldsAt, get_bind_eq_ok_iff (hnull fields), Steps.bind_eq_ok, Json.Lists]
  simp only [asArray_eq_ok_iff, mapM_eq_ok_iff_forall₂ field_eq_ok_iff]

/-- A word is a return type, and no other than `void` stands for none. -/
theorem returnType_eq_iff {word : String} {type? : Option String} :
    (if word = voidWord then none else some word) = type? ↔
      word = type?.getD voidWord ∧ type? ≠ some voidWord := by
  split
  · next hvoid =>
    subst hvoid
    cases type? with
    | none => simp
    | some type => simp [eq_comm]
  · next hword =>
    cases type? with
    | none => simp [hword]
    | some type =>
      rw [Option.some.injEq, Option.getD_some, ne_eq, Option.some.injEq]
      constructor
      · rintro rfl
        exact ⟨rfl, hword⟩
      · exact fun h => h.1

theorem function_eq_ok_iff {value : Function} :
    function json = .ok value ↔ value.Written json := by
  simp only [function, Steps.bind_eq_ok, Steps.pure_eq_ok, asObject_eq_ok_iff, stringAt_eq_ok_iff,
    boolAt_eq_ok_iff, fieldsAt_eq_ok_iff, lineAt_eq_ok_iff]
  constructor
  · rintro ⟨members, rfl, word, hword, name, hname, oneway, honeway, params, hparams, throws,
      hthrows, line, ⟨hline, hfits⟩, rfl⟩
    have hreturn := returnType_eq_iff.1 (Eq.refl (if word = voidWord then none else some word))
    rw [hreturn.1] at hword
    exact ⟨hname, hword, hreturn.2, honeway, hparams, hthrows, hline, hfits⟩
  · intro h
    obtain ⟨members, rfl⟩ := Json.exists_object (Json.under_string.1 h.name)
    refine ⟨members, rfl, _, h.returnType, value.name, h.name, value.oneway, h.oneway, value.params,
      h.params, value.throws, h.throws, value.line, ⟨h.line, h.fits⟩, ?_⟩
    rw [returnType_eq_iff.2 ⟨rfl, h.named⟩]

/-- Reading the body of a kind gives the bodies of that kind that the object writes. -/
theorem body_eq_ok_iff {kind : Kind} {value : Body} :
    body members kind = .ok value ↔ value.kind = kind ∧ value.Written (.object members) := by
  cases kind
  all_goals
    simp only [body, Steps.bind_eq_ok, Steps.pure_eq_ok, stringAt_eq_ok_iff, arrayAt_eq_ok_iff,
      fieldsAt_eq_ok_iff, optionalAt_eq_ok_iff, mapM_asString_eq_ok_iff,
      mapM_eq_ok_iff_forall₂ enumValue_eq_ok_iff, mapM_eq_ok_iff_forall₂ function_eq_ok_iff]
    cases value
  all_goals simp [Body.kind, Body.Written, Json.Lists]

theorem definition_eq_ok_iff {value : Definition} :
    definition json = .ok value ↔ value.Written json := by
  simp only [definition, Steps.bind_eq_ok, Steps.pure_eq_ok, asObject_eq_ok_iff,
    stringAt_eq_ok_iff, kind_eq_ok_iff, lineAt_eq_ok_iff, body_eq_ok_iff]
  constructor
  · rintro ⟨members, rfl, _, hkind, kind, rfl, name, hname, line, ⟨hline, hfits⟩, body,
      ⟨rfl, hbody⟩, rfl⟩
    exact ⟨hkind, hname, hline, hfits, hbody⟩
  · intro h
    obtain ⟨members, rfl⟩ := Json.exists_object (Json.under_string.1 h.name)
    exact ⟨members, rfl, _, h.kind, value.kind, rfl, value.name, h.name, value.line,
      ⟨h.line, h.fits⟩, value.body, ⟨rfl, h.body⟩, rfl⟩

theorem within_eq_ok_iff {α : Type} {context : Context} {result : Decoded α} {value : α} :
    within context result = .ok value ↔ result = .ok value := by
  rcases result with error | other
  · simp [within]
  · simp [within]

theorem definitionsFrom_eq_ok_iff {items : List Json} {index : Nat} {values : List Definition} :
    definitionsFrom index items = .ok values ↔
      List.Forall₂ (fun item value => value.Written item) items values := by
  induction items generalizing index values with
  | nil => simp [definitionsFrom, eq_comm]
  | cons item items ih =>
    simp only [definitionsFrom, Steps.bind_eq_ok, Steps.pure_eq_ok, within_eq_ok_iff, ih,
      definition_eq_ok_iff, List.forall₂_cons_left_iff]
    constructor
    · rintro ⟨first, hfirst, more, hmore, rfl⟩
      exact ⟨first, more, hfirst, hmore, rfl⟩
    · rintro ⟨first, more, hfirst, hmore, rfl⟩
      exact ⟨first, hfirst, more, hmore, rfl⟩

end Decoding

end ThriftIdl

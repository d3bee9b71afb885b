import ThriftIdl.Json.Reading
import ThriftIdl.Model.Encoding

/-!
Reading a model's text. Documents are built with the checks on definitions, and every reference
of a namespace must point to a definition of the kind it is listed under and is registered again.
-/

namespace ThriftIdl

/-- What a JSON value must be. -/
inductive Form where
  | object
  | array
  | string
  | boolean
  | lineNumber
  | int16
  | int32

def Form.text : Form → String
  | object => "a JSON object"
  | array => "a JSON array"
  | string => "a string"
  | boolean => "a boolean"
  | lineNumber => "a non-negative integer"
  | int16 => "a 16-bit integer"
  | int32 => "a 32-bit integer"

/-- What is wrong with a model's text. -/
inductive Complaint where
  | notJson
  | missing (key : String)
  | mustBe (what : String) (form : Form)
  | unknownKind (word : String)
  | unknownRequiredness (word : String)
  | unknownGroup (space word : String)
  | unknownReference (space : String) (reference : Reference)
  | misplaced (space : String) (kind : Kind) (identifier : String) (listed : Kind)
  | fault (fault : Fault)

def Complaint.text : Complaint → Except Overflow String
  | notJson => .ok "invalid model JSON"
  | missing key => .ok s!"missing `{key}`"
  | mustBe what form => .ok s!"{what} must be {form.text}"
  | unknownKind word => .ok (Kind.unknownText word)
  | unknownRequiredness word => .ok (Requiredness.unknownText word)
  | unknownGroup space word => .ok s!"namespace `{space}`: {Kind.unknownText word}"
  | unknownReference space reference =>
    .ok (s!"namespace `{space}` references unknown definition `{reference.identifier}` " ++
      s!"in document `{reference.document}`")
  | misplaced space kind identifier listed =>
    .ok s!"namespace `{space}` lists {kind.word} `{identifier}` under `{listed.word}`"
  | fault cause => cause.text

/-- The part of the text that was being read. -/
inductive Context where
  | document (name : String)
  | definition (index : Nat)
  | target (name : String)

def Context.text : Context → String
  | document name => s!"decode document `{name}`"
  | definition index => s!"decode definition at index {Text.ofInt index}"
  | target name => s!"decode target `{name}`"

/-- How the reading of a model's text fails. The text is refused with a complaint, under the parts
that hold what it is about, outermost first; or the program stops while it writes the message of a
fault. -/
inductive DecodeError where
  | refused (contexts : List Context) (complaint : Complaint)
  | stopped (overflow : Overflow)

namespace DecodeError

/-- The error for a fault. If its message could not be written there is nothing to complain of. -/
def ofFault (fault : Fault) : DecodeError :=
  match fault.message with
  | .ok _ => refused [] (.fault fault)
  | .error overflow => stopped overflow

/-- The error as one of a larger part. -/
def within (context : Context) : DecodeError → DecodeError
  | refused contexts complaint => refused (context :: contexts) complaint
  | stopped overflow => stopped overflow

def texts : DecodeError → Except Overflow (List String)
  | refused contexts complaint => do return contexts.map Context.text ++ [← complaint.text]
  | stopped overflow => .error overflow

end DecodeError

namespace Decoding

/-- A reading of part of a model's text. -/
abbrev Decoded (α : Type) := Except DecodeError α

/-- The complaint, without context. -/
def refuse {α : Type} (complaint : Complaint) : Decoded α := .error (.refused [] complaint)

def within {α : Type} (context : Context) : Decoded α → Decoded α
  | .ok value => .ok value
  | .error error => .error (error.within context)

def asObject (what : String) : Json → Decoded (List (String × Json))
  | .object members => .ok members
  | _ => refuse (.mustBe what .object)

def asArray (what : String) : Json → Decoded (List Json)
  | .array items => .ok items
  | _ => refuse (.mustBe what .array)

def asString (what : String) : Json → Decoded String
  | .string text => .ok text
  | _ => refuse (.mustBe what .string)

def asBool (what : String) : Json → Decoded Bool
  | .bool value => .ok value
  | _ => refuse (.mustBe what .boolean)

def get (members : List (String × Json)) (key : String) : Decoded Json :=
  match Json.member? members key with
  | some value => .ok value
  | none => refuse (.missing key)

def stringAt (members : List (String × Json)) (key : String) : Decoded String := do
  asString s!"`{key}`" (← get members key)

def boolAt (members : List (String × Json)) (key : String) : Decoded Bool := do
  asBool s!"`{key}`" (← get members key)

def arrayAt (members : List (String × Json)) (key : String) : Decoded (List Json) := do
  asArray key (← get members key)

/-- The string under the key, if there is one. -/
def optionalAt (members : List (String × Json)) (key : String) : Decoded (Option String) :=
  match Json.member? members key with
  | some value => (asString key value).map some
  | none => .ok none

/-- The line under the key `line`: a natural number of 64 bits. -/
def lineAt (members : List (String × Json)) : Decoded Nat := do
  match ← get members "line" with
  | .integer value =>
    if 0 ≤ value ∧ value < Text.wordSize then .ok value.toNat
    else refuse (.mustBe "`line`" .lineNumber)
  | _ => refuse (.mustBe "`line`" .lineNumber)

/-- An integer that a check narrows. -/
def narrowed {α : Type} (narrow? : Int → Option α) (complaint : Complaint) : Json → Decoded α
  | .integer value =>
    match narrow? value with
    | some value => .ok value
    | none => refuse complaint
  | _ => refuse complaint

def enumValue (json : Json) : Decoded EnumValue := do
  let members ← asObject "enum value" json
  let value ← narrowed Text.int32? (.mustBe "enum `value`" .int32) (← get members "value")
  let name ← stringAt members "name"
  let explicit ← boolAt members "explicit"
  let line ← lineAt members
  return ⟨name, value, explicit, line⟩

def requiredness (word : String) : Decoded Requiredness :=
  match Requiredness.ofWord? word with
  | some requiredness => .ok requiredness
  | none => refuse (.unknownRequiredness word)

def field (json : Json) : Decoded Field := do
  let members ← asObject "field" json
  let id ← narrowed Text.int16? (.mustBe "field `id`" .int16) (← get members "id")
  let requiredness ← requiredness (← stringAt members "requiredness")
  let default? ← optionalAt members "default"
  let type ← stringAt members "type"
  let name ← stringAt members "name"
  let line ← lineAt members
  return ⟨id, requiredness, type, name, default?, line⟩

def fieldsAt (members : List (String × Json)) (key : String) : Decoded (List Field) := do
  let items ← asArray "fields" (← get members key)
  items.mapM field

def function (json : Json) : Decoded Function := do
  let members ← asObject "function" json
  let returnType ← stringAt members "returnType"
  let name ← stringAt members "name"
  let oneway ← boolAt members "oneway"
  let params ← fieldsAt members "params"
  let throws ← fieldsAt members "throws"
  let line ← lineAt members
  let returnType? := if returnType = voidWord then none else some returnType
  return ⟨name, returnType?, oneway, params, throws, line⟩

/-- The body of a definition of the kind, from the definition's members. -/
def body (members : List (String × Json)) : Kind → Decoded Body
  | .const => do
    let type ← stringAt members "type"
    let value ← stringAt members "value"
    return .const type value
  | .typedef => do
    let type ← stringAt members "type"
    return .typedef type
  | .enum => do
    let values ← (← arrayAt members "values").mapM enumValue
    return .enum values
  | .senum => do
    let values ← (← arrayAt members "values").mapM (asString "senum value")
    return .senum values
  | .struct => do
    let fields ← fieldsAt members "fields"
    return .struct fields
  | .exception => do
    let fields ← fieldsAt members "fields"
    return .exception fields
  | .service => do
    let base? ← optionalAt members "extends"
    let functions ← (← arrayAt members "functions").mapM function
    return .service base? functions

def kind (word : String) : Decoded Kind :=
  match Kind.ofWord? word with
  | some kind => .ok kind
  | none => refuse (.unknownKind word)

def definition (json : Json) : Decoded Definition := do
  let members ← asObject "definition" json
  let kind ← kind (← stringAt members "kind")
  let name ← stringAt members "identifier"
  let line ← lineAt members
  let body ← body members kind
  return ⟨⟨name, line⟩, body⟩

/-- The definitions of an array from the given index on. -/
def definitionsFrom (index : Nat) : List Json → Decoded (List Definition)
  | [] => .ok []
  | json :: rest => do
    let first ← within (.definition index) (definition json)
    let more ← definitionsFrom (index + 1) rest
    return first :: more

def namespaces (members : List (String × Json)) : Decoded (Table String) := do
  let pairs ← members.mapM fun (target, value) => do
    let name ← asString "namespace name" value
    return (target, name)
  return Table.ofPairs pairs

/-- The result of a step that may end in a fault. -/
def faultless {α : Type} : Except Fault α → Decoded α
  | .ok value => .ok value
  | .error fault => .error (.ofFault fault)

def document (name : String) (json : Json) : Decoded Document := do
  let members ← asObject "document" json
  let namespaces ← namespaces (← asObject "namespaces" (← get members "namespaces"))
  let lines ← (← arrayAt members "lines").mapM (asString "line")
  let definitions ← definitionsFrom 0 (← arrayAt members "definitions")
  faultless (definitions.foldlM Document.push ⟨name, lines, namespaces, []⟩)

/-- The definition that a reference points to, which must be of the listed kind. -/
def referenced (documents : List Document) (space : String) (listed : Kind)
    (reference : Reference) : Decoded Definition :=
  let found? := (documents.find? (·.name == reference.document)).bind
    (·.lookup? reference.identifier)
  match found? with
  | none => refuse (.unknownReference space reference)
  | some definition =>
    if definition.kind = listed then .ok definition
    else refuse (.misplaced space definition.kind reference.identifier listed)

/-- The namespace with one more reference of the listed kind. -/
def register (documents : List Document) (listed : Kind) (space : Namespace) (json : Json) :
    Decoded Namespace := do
  let members ← asObject "reference" json
  let document ← stringAt members "document"
  let identifier ← stringAt members "identifier"
  let definition ← referenced documents space.name listed ⟨document, identifier⟩
  faultless (space.register document definition)

/-- The namespace with the references of one group. -/
def registerGroup (documents : List Document) (space : Namespace) (group : String × Json) :
    Decoded Namespace := do
  match Kind.ofWord? group.1 with
  | none => refuse (.unknownGroup space.name group.1)
  | some listed =>
    let references ← asArray "references" group.2
    references.foldlM (register documents listed) space

def addNamespace (documents : List Document) (target : Target) (entry : String × Json) :
    Decoded Target := do
  let groups ← asObject "namespace" entry.2
  let space ← groups.foldlM (registerGroup documents) (target.namespaceOrEmpty entry.1)
  return target.put space

def target (documents : List Document) (name : String) (json : Json) : Decoded Target := do
  let members ← asObject "target" json
  members.foldlM (addNamespace documents) ⟨name, []⟩

def model (json : Json) : Decoded Model := do
  let members ← asObject "model" json
  let parsed ← boolAt members "parsed"
  let documents ← (← asObject "documents" (← get members "documents")).mapM
    fun (name, json) => within (.document name) (document name json)
  let targets ← (← asObject "targets" (← get members "targets")).mapM
    fun (name, json) => within (.target name) (target documents name json)
  return { documents, targets, parsed }

end Decoding

namespace Model

/-- The model that a text in UTF-8 writes. -/
def decode (bytes : ByteArray) : Except DecodeError Model :=
  match (String.fromUTF8? bytes).bind Json.ofText? with
  | none => Decoding.refuse .notJson
  | some json => Decoding.model json

end Model

end ThriftIdl

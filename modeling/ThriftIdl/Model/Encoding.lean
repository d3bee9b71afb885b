import ThriftIdl.Json.Printing
import ThriftIdl.Model

/-!
The text of a model: what a generator reads. Documents and namespaces stand in their order,
references by kind, and optional parts are left out if there are none.
-/

namespace ThriftIdl

/-- The word for a function that returns nothing. -/
def voidWord : String := "void"

def EnumValue.toJson (value : EnumValue) : Json :=
  .object [
    ("name", .string value.name),
    ("value", .integer value.value.toInt),
    ("explicit", .bool value.explicit),
    ("line", .ofNat value.line)]

/-- An optional member that holds a string. -/
def Json.optional (key : String) (text? : Option String) : List (String × Json) :=
  text?.toList.map fun text => (key, .string text)

def Field.toJson (field : Field) : Json :=
  .object ([
    ("id", .integer field.id.toInt),
    ("requiredness", .string field.requiredness.word),
    ("type", .string field.type),
    ("name", .string field.name)] ++
    Json.optional "default" field.default? ++ [
    ("line", .ofNat field.line)])

def Function.toJson (function : Function) : Json :=
  .object [
    ("name", .string function.name),
    ("returnType", .string (function.returnType?.getD voidWord)),
    ("oneway", .bool function.oneway),
    ("params", .array (function.params.map Field.toJson)),
    ("throws", .array (function.throws.map Field.toJson)),
    ("line", .ofNat function.line)]

/-- What a body adds to the members of its definition. -/
def Body.toMembers : Body → List (String × Json)
  | const type value => [("type", .string type), ("value", .string value)]
  | typedef type => [("type", .string type)]
  | enum values => [("values", .array (values.map EnumValue.toJson))]
  | senum values => [("values", .array (values.map Json.string))]
  | struct fields => [("fields", .array (fields.map Field.toJson))]
  | exception fields => [("fields", .array (fields.map Field.toJson))]
  | service base? functions =>
    Json.optional "extends" base? ++
      [("functions", .array (functions.map Function.toJson))]

def Definition.toJson (definition : Definition) : Json :=
  .object ([
    ("kind", .string definition.kind.word),
    ("identifier", .string definition.name),
    ("line", .ofNat definition.line)] ++ definition.body.toMembers)

def Document.toJson (document : Document) : Json :=
  .object [
    ("namespaces", .object (document.namespaces.map fun entry => (entry.1, .string entry.2))),
    ("lines", .array (document.lines.map Json.string)),
    ("definitions", .array (document.definitions.map Definition.toJson))]

def Reference.toJson (reference : Reference) : Json :=
  .object [
    ("document", .string reference.document),
    ("identifier", .string reference.identifier)]

def Namespace.toJson (space : Namespace) : Json :=
  .object (space.groups.map fun group => (group.1.word, .array (group.2.map Reference.toJson)))

def Target.toJson (target : Target) : Json :=
  .object (target.namespaces.map fun space => (space.name, space.toJson))

namespace Model

def toJson (model : Model) : Json :=
  .object [
    ("parsed", .bool model.parsed),
    ("documents", .object (model.documents.map fun document => (document.name, document.toJson))),
    ("targets", .object (model.targets.map fun target => (target.name, target.toJson)))]

def encode (model : Model) : String := model.toJson.pretty

/-- The text of a model as a whole number of lines. -/
def written (model : Model) : String := model.encode ++ "\n"

end Model

end ThriftIdl

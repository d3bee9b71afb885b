import ThriftIdl.Document.Reading
import ThriftIdl.Target

/-!
The model: documents by name, and the targets they were merged into. Documents are added first;
then the model is parsed, once.
-/

namespace ThriftIdl

/-- Documents in the order in which they were added, the targets they make up, whether they were
parsed, and the warnings not handed out yet. -/
structure Model where
  documents : List Document := []
  targets : List Target := []
  parsed : Bool := false
  warnings : List Warning := []

namespace Model

def empty : Model := {}

def document? (model : Model) (name : String) : Option Document :=
  model.documents.find? (·.name == name)

def target? (model : Model) (name : String) : Option Target :=
  model.targets.find? (·.name == name)

/-- The definition that a reference points to. -/
def resolve? (model : Model) (reference : Reference) : Option Definition :=
  (model.document? reference.document).bind (·.lookup? reference.identifier)

/-- The model with one more document, unless it was parsed or has a document of the name. -/
def add (model : Model) (name source : String) : Except Fault Model :=
  if model.parsed then
    .error {
      category := .alreadyParsed
      message := .ok s!"cannot add document `{name}`: the model has already been parsed" }
  else if (model.document? name).isSome then
    .error {
      category := .duplicateDocument
      message := .ok s!"a document named `{name}` already exists in this model" }
  else .ok { model with documents := model.documents ++ [.ofSource name source] }

/-- Why a document cannot be added from bytes. -/
inductive AddError where
  | notText (name : String)
  | fault (fault : Fault)

def AddError.texts : AddError → Except Overflow (List String)
  | notText name => .ok [s!"read document `{name}`", "stream did not contain valid UTF-8"]
  | fault cause => do return [← cause.text]

/-- The model with one more document, whose text comes as bytes in UTF-8. -/
def addBytes (model : Model) (name : String) (bytes : ByteArray) : Except AddError Model :=
  match String.fromUTF8? bytes with
  | none => .error (.notText name)
  | some source =>
    match model.add name source with
    | .ok model => .ok model
    | .error fault => .error (.fault fault)

/-- The documents read one after the other, up to the first that cannot be read, and the warnings
of all that were tried. -/
def readAll : List Document → Except Fault (List Document) × List Warning
  | [] => (.ok [], [])
  | document :: rest =>
    match document.read with
    | .error fault => (.error fault, document.warnings)
    | .ok first =>
      let (result, warnings) := readAll rest
      (result.map (first :: ·), document.warnings ++ warnings)

/-- The document among those given that has the same name, or else the document itself. -/
def updated (documents : List Document) (document : Document) : Document :=
  (documents.find? (·.name == document.name)).getD document

/-- The model after its documents were read and merged. If they cannot all be read the documents
stay; if they can be read but not merged, the model has them as read. Warnings are kept in either
case. -/
def parse (model : Model) : Except Fault Unit × Model :=
  if model.parsed then
    (.error {
      category := .alreadyParsed
      message := .ok "the model has already been parsed" }, model)
  else
    let (result, warnings) := readAll (Target.sortDocuments model.documents)
    let model := { model with warnings := model.warnings ++ warnings }
    match result with
    | .error fault => (.error fault, model)
    | .ok read =>
      let model := { model with documents := model.documents.map (updated read) }
      match Target.resolve model.documents with
      | .error fault => (.error fault, model)
      | .ok targets => (.ok (), { model with targets := targets, parsed := true })

/-- The warnings collected so far, and the model without them. -/
def drain (model : Model) : List Warning × Model := (model.warnings, { model with warnings := [] })

/-- The models are equal but for warnings, with documents and targets in any order. -/
def same (left right : Model) : Bool :=
  left.parsed == right.parsed && left.documents.length == right.documents.length &&
    (left.documents.all fun document =>
      ((right.document? document.name).map document.same).getD false) &&
    left.targets.length == right.targets.length &&
    left.targets.all fun target => ((right.target? target.name).map target.same).getD false

end Model

end ThriftIdl

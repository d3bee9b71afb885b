import ThriftIdl.Definition
import ThriftIdl.Table
import ThriftIdl.Text.Lines
import ThriftIdl.Violation

/-!
Documents: their lines, the namespace they have for each target, and their definitions.
-/

namespace ThriftIdl

/-- The target in which every document read from text has a namespace. -/
def defaultTarget : String := "default"

namespace DocumentName

/-- The characters that part the folders of a document's name. -/
def isSeparator (c : Char) : Bool := c == '/' || c == '\\'

/-- The name up to its last dot, if something stands before the dot and no folder ends after
it. -/
def stem (name : List Char) : List Char :=
  let extension := name.reverse.takeWhile (· != '.')
  match name.reverse.dropWhile (· != '.') with
  | '.' :: before =>
    if before.isEmpty || extension.any isSeparator then name else before.reverse
  | _ => name

/-- The namespace a document has by its name: the stem, with dots between the folders. -/
def namespaceName (name : String) : String :=
  String.ofList ((stem name.toList).map fun c => if isSeparator c then '.' else c)

end DocumentName

/-- A document. Its definitions are known once it has been read. -/
structure Document where
  name : String
  lines : List String
  namespaces : Table String
  definitions : List Definition
deriving DecidableEq

namespace Document

/-- The document with the text, not read yet. -/
def ofSource (name source : String) : Document where
  name := name
  lines := Text.linesOf source
  namespaces := [(defaultTarget, DocumentName.namespaceName name)]
  definitions := []

def lookup? (document : Document) (name : String) : Option Definition :=
  Definition.lookup? document.definitions name

/-- The namespace of the document for a target, or else the one for the default target. -/
def namespaceFor? (document : Document) (target : String) : Option String :=
  (document.namespaces.get? target).or (document.namespaces.get? defaultTarget)

def place (document : Document) (line : Nat) : Location := ⟨document.name, line⟩

/-- The document with one more definition, whose name must be new. -/
def push (document : Document) (definition : Definition) : Except Fault Document :=
  match document.lookup? definition.name with
  | some earlier =>
    let violation : Violation := ⟨definition.line, .redefined definition.name earlier.line⟩
    .error ((violation.fault document.name).withSource document.lines)
  | none => .ok { document with definitions := document.definitions ++ [definition] }

/-- The documents are equal, their namespaces in any order. -/
def same (left right : Document) : Bool :=
  left.name == right.name && left.lines == right.lines &&
    left.namespaces.sameEntries right.namespaces && left.definitions == right.definitions

end Document

end ThriftIdl

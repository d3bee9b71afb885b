import ThriftIdl.Document
import ThriftIdl.Document.Header
import ThriftIdl.Grammar.Definition

/-!
Reading a document: its header, then its definitions. Remarks on the header are kept even if the
definitions cannot be read.
-/

namespace ThriftIdl.Document

def isWritten (raw : String) : Bool := !(Text.trim raw.toList).isEmpty

/-- The index of the last line that holds more than blanks, or zero. -/
def lastLine (lines : List String) : Nat :=
  lines.length - 1 - (lines.reverse.takeWhile (!isWritten ·)).length

/-- The header of the document, on top of the namespaces it has. -/
def header (document : Document) : Header :=
  Header.read document.namespaces (Line.meaningful document.lines)

/-- The definitions of the document. There must be one. -/
def readDefinitions (document : Document) : Grammar.Reading (List Definition) := do
  let definitions ← Grammar.readDefinitions [] document.header.rest
  if definitions.isEmpty then .error ⟨lastLine document.lines, .noDefinitions⟩
  else .ok definitions

/-- The warnings that reading the document gives. -/
def warnings (document : Document) : List Warning :=
  document.header.notices.map fun notice =>
    ⟨document.place notice.line, notice.remark.text, some document.lines⟩

/-- The document with its namespaces and definitions, or the first rule it breaks. -/
def read (document : Document) : Except Fault Document :=
  match document.readDefinitions with
  | .ok definitions =>
    .ok { document with namespaces := document.header.namespaces, definitions := definitions }
  | .error violation => .error ((violation.fault document.name).withSource document.lines)

end ThriftIdl.Document

import ThriftIdl.Kind
import ThriftIdl.Location
import ThriftIdl.Text.Blank

/-!
Faults, which end a build, and warnings, which do not. Either may carry the lines of the document
it points into; it then labels the trimmed text of its line.
-/

namespace ThriftIdl

/-- The part of the grammar that a fault is about. -/
inductive Construct where
  | definition (kind : Kind)
  | enumValue
  | senumValue
  | field
  | function
deriving DecidableEq

def Construct.text : Construct → String
  | definition kind => s!"{kind.word} definition"
  | enumValue => "enum value"
  | senumValue => "senum value"
  | field => "field"
  | function => "function"

/-- Where a definition's name must be unique. -/
inductive Scope where
  | document
  | sharedNamespace
deriving DecidableEq

/-- The class of a fault. The last one means that a rule the program should have kept was
broken. -/
inductive Category where
  | unexpectedKeyword
  | alreadyParsed
  | noDefinitions
  | invalidShape (construct : Construct)
  | invalidIdentifier
  | duplicateIdentifier (scope : Scope) (earlier : Location)
  | duplicateMember (construct : Construct) (earlier : Location)
  | duplicateDocument
  | internal
deriving DecidableEq

/-- A stretch of text in UTF-8 bytes. -/
structure Span where
  offset : Nat
  length : Nat
deriving DecidableEq

/-- The trimmed text of a line, as a stretch of the lines joined by line feeds. -/
def Span.ofLine? (lines : List String) (number : Nat) : Option Span :=
  lines[number]?.map fun raw =>
    let size := ("\n".intercalate lines).utf8ByteSize
    let before := (lines.take number).foldl (fun size line => size + line.utf8ByteSize + 1) 0
    let unindented := String.ofList (Text.trimStart raw.toList)
    let offset := min (before + (raw.utf8ByteSize - unindented.utf8ByteSize)) size
    let trimmed := String.ofList (Text.trim raw.toList)
    ⟨offset, min trimmed.utf8ByteSize (size - offset)⟩

/-- A labelled stretch of a document. -/
structure Label where
  text : Except Overflow String
  span : Span
deriving DecidableEq

/-- A fault, with the lines of its document once they are attached. Its message is written when the
fault is found, and the program may stop there. -/
structure Fault where
  category : Category
  message : Except Overflow String
  location? : Option Location := none
  help? : Option String := none
  source? : Option (List String) := none
deriving DecidableEq

namespace Fault

/-- The fault with the lines of its document. Without a place there is nothing to attach to. -/
def withSource (fault : Fault) (lines : List String) : Fault :=
  if fault.location?.isSome then { fault with source? := some lines } else fault

/-- The whole text of a fault: its place, then its message. -/
def text (fault : Fault) : Except Overflow String := do
  let message ← fault.message
  match fault.location? with
  | some place => return s!"{← place.text}: {message}"
  | none => return message

/-- What the label on the faulty line says. -/
def labelText (fault : Fault) : Except Overflow String :=
  match fault.category with
  | .duplicateIdentifier _ earlier => do return s!"previously declared at {← earlier.text}"
  | .duplicateMember _ earlier => do return s!"previously declared at {← earlier.text}"
  | _ => .ok "here"

def label? (fault : Fault) : Option Label := do
  let place ← fault.location?
  let lines ← fault.source?
  let span ← Span.ofLine? lines place.line
  return ⟨fault.labelText, span⟩

end Fault

/-- A remark on a document that can still be read. -/
structure Warning where
  location : Location
  message : String
  source? : Option (List String) := none

namespace Warning

def withSource (warning : Warning) (lines : List String) : Warning :=
  { warning with source? := some lines }

def text (warning : Warning) : Except Overflow String := do
  return s!"{← warning.location.text}: {warning.message}"

def label? (warning : Warning) : Option Label := do
  let lines ← warning.source?
  let span ← Span.ofLine? lines warning.location.line
  return ⟨.ok "ignored", span⟩

/-- Two warnings say the same about the same line, with or without its text. -/
def same (left right : Warning) : Bool :=
  left.location == right.location && left.message == right.message

end Warning

end ThriftIdl

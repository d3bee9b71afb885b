import ThriftIdl.Fault
import ThriftIdl.Keyword
import ThriftIdl.Line.Cursor
import ThriftIdl.Table
import ThriftIdl.Text.Integer

/-!
The header of a document: the directives before its first definition. A namespace directive with
three fields sets the namespace for a target; any other directive is only remarked on. The header is
read from the list of the lines, or from a cursor that hands them out.
-/

namespace ThriftIdl

/-- What is wrong with a directive that is skipped. -/
inductive Remark where
  | ignored (directive : Directive)
  | malformed (fields : Nat)
deriving DecidableEq

def Remark.text : Remark → String
  | ignored directive => s!"{directive.word} directives are not supported and were ignored"
  | malformed fields =>
    s!"expected `namespace <target> <name>` but found {Text.ofInt fields} fields; directive skipped"

structure Notice where
  line : Nat
  remark : Remark
deriving DecidableEq

/-- The warning that a remark on a line of a document is, its text apart. -/
def Notice.warning (document : String) (notice : Notice) : Warning :=
  ⟨⟨document, notice.line⟩, notice.remark.text, none⟩

namespace Header

/-- What a line of the header does. -/
inductive Effect where
  | setNamespace (target name : String)
  | remark (remark : Remark)
deriving DecidableEq

/-- The effect of a line with the fields, if its first field is a directive. -/
def effect? : List String → Option Effect
  | [] => none
  | word :: rest =>
    match Directive.ofWord? word, rest with
    | none, _ => none
    | some .namespaceOf, [target, name] => some (.setNamespace target name)
    | some .namespaceOf, rest => some (.remark (.malformed (rest.length + 1)))
    | some directive, _ => some (.remark (.ignored directive))

end Header

/-- A header that has been read: the namespaces, the remarks in line order, and the lines after
it. -/
structure Header where
  namespaces : Table String
  notices : List Notice
  rest : List Line

namespace Header

/-- The header at the start of the lines, on top of given namespaces. It ends before the first
line that is no directive. -/
def read (namespaces : Table String) : List Line → Header
  | [] => ⟨namespaces, [], []⟩
  | line :: rest =>
    match effect? (Text.fieldsOf line.text) with
    | none => ⟨namespaces, [], line :: rest⟩
    | some (.setNamespace target name) => read (namespaces.insert target name) rest
    | some (.remark remark) =>
      let header := read namespaces rest
      { header with notices := ⟨line.number, remark⟩ :: header.notices }

/-- What stands so far of a header that is read from a cursor. -/
structure Progress where
  cursor : Line.Cursor
  namespaces : Table String
  warnings : List Warning

namespace Progress

set_option linter.unusedVariables false in
/-- Take one line after the other from the cursor, and do what it says, up to the first that is no
directive. That one is taken back. -/
def run (document : String) (progress : Progress) : Progress :=
  match hline : progress.cursor.advance with
  | (none, cursor) => { progress with cursor := cursor }
  | (some line, cursor) =>
    match effect? (Text.fieldsOf line.text) with
    | none => { progress with cursor := cursor.rewind }
    | some (.setNamespace target name) =>
      run document
        { progress with cursor := cursor, namespaces := progress.namespaces.insert target name }
    | some (.remark remark) =>
      let notice : Notice := ⟨cursor.lineNumber, remark⟩
      run document
        { progress with
          cursor := cursor
          warnings := progress.warnings ++ [notice.warning document] }
termination_by progress.cursor.rest.length
decreasing_by all_goals exact Line.Cursor.length_rest_lt hline

end Progress

end Header

end ThriftIdl

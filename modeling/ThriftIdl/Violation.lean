import ThriftIdl.Fault
import ThriftIdl.Keyword

/-!
The rules of the grammar that a document can break, each with what its message needs. Lines are
indices into the document.
-/

namespace ThriftIdl

/-- What should have come next. -/
inductive Expectation where
  | fieldId
  | fieldType
  | fieldName
  | returnType
  | functionName
  | exceptionType
  | value
  | enumValueName
  | quotedString
  | openingBrace
deriving DecidableEq

def Expectation.text : Expectation → String
  | fieldId => "a field id"
  | fieldType => "a field type"
  | fieldName => "a field name"
  | returnType => "a return type"
  | functionName => "a function name"
  | exceptionType => "an exception type"
  | value => "a value"
  | enumValueName => "an enum value name"
  | quotedString => "a quoted string"
  | openingBrace => "`\x7b`"

/-- How a construct fails to have its shape. -/
inductive Defect where
  | expected (what : Expectation) (found? : Option String)
  | opening (kind : Kind)
  | blockNotOpened
  | blockNotClosed
  | afterBlock (found : String)
  | noEnumNumber (name : String)
  | notInt32 (text : String)
  | enumOverflow (name : String)
  | noBaseService
  | notInt16 (text : String)
  | noColon (id : Int16)
  | noParameters (function : String)
  | noExceptions
  | parametersNotClosed
  | groupNotClosed
  | onewayAnswers (function : String)
deriving DecidableEq

/-- The text for a definition that does not open as its kind must. -/
def Defect.openingText : Kind → String
  | .const => "expected `const <type> <identifier> = <value>`"
  | .typedef => "expected `typedef <type> <identifier>`"
  | kind => s!"expected `{kind.word} <identifier> \x7b`"

def Defect.text : Defect → String
  | expected what (some found) => s!"expected {what.text} but found `{found}`"
  | expected what none => s!"expected {what.text}"
  | opening kind => openingText kind
  | blockNotOpened => "expected `\x7b` to open the block"
  | blockNotClosed => "block is never closed with `\x7d`"
  | afterBlock found => s!"unexpected `{found}` after the end of the block"
  | noEnumNumber name => s!"missing value for `{name}`"
  | notInt32 text => s!"`{text}` is not a 32-bit integer"
  | enumOverflow name => s!"implicit value of `{name}` overflows a 32-bit integer"
  | noBaseService => "expected a service name after `extends`"
  | notInt16 text => s!"field id `{text}` is not a 16-bit integer"
  | noColon id => s!"expected `:` after field id {Text.ofInt id.toInt}"
  | noParameters function => s!"expected `(` after function name `{function}`"
  | noExceptions => "expected `(` after `throws`"
  | parametersNotClosed => "unterminated parameter list, expected `)`"
  | groupNotClosed => "unterminated `\x7b` in value"
  | onewayAnswers function =>
    s!"oneway function `{function}` must return void and declare no exceptions"

/-- How a member repeats an earlier one. -/
inductive Clash where
  | enumName (name : String)
  | enumNumber (value : Int32) (name earlier : String)
  | senumText (text : String)
  | fieldId (id : Int16) (earlier : String)
  | fieldName (name : String)
  | functionName (name : String)
deriving DecidableEq

def Clash.construct : Clash → Construct
  | enumName .. => .enumValue
  | enumNumber .. => .enumValue
  | senumText .. => .senumValue
  | fieldId .. => .field
  | fieldName .. => .field
  | functionName .. => .function

def Clash.text : Clash → String
  | enumName name => s!"enum value `{name}` is already declared"
  | enumNumber value name earlier =>
    s!"value {Text.ofInt value.toInt} of `{name}` is already used by `{earlier}`"
  | senumText text => s!"senum value \"{text}\" is already declared"
  | fieldId id earlier => s!"field id {Text.ofInt id.toInt} is already used by `{earlier}`"
  | fieldName name => s!"field `{name}` is already declared"
  | functionName name => s!"function `{name}` is already declared in this service"

/-- A rule that a document breaks. The last one cannot be broken by any text: a meaningful line
has a token. -/
inductive Rule where
  | unexpectedWord (text : String)
  | noDefinitions
  | shape (construct : Construct) (defect : Defect)
  | badIdentifier (text : String)
  | redefined (name : String) (earlier : Nat)
  | repeated (clash : Clash) (earlier : Nat)
  | noTokens
deriving DecidableEq

/-- A broken rule and the line that breaks it. -/
structure Violation where
  line : Nat
  rule : Rule
deriving DecidableEq

namespace Rule

def category (document : String) : Rule → Category
  | unexpectedWord _ => .unexpectedKeyword
  | noDefinitions => .noDefinitions
  | shape construct _ => .invalidShape construct
  | badIdentifier _ => .invalidIdentifier
  | redefined _ earlier => .duplicateIdentifier .document ⟨document, earlier⟩
  | repeated clash earlier => .duplicateMember clash.construct ⟨document, earlier⟩
  | noTokens => .internal

/-- The addition that says where the earlier declaration is. -/
def previously (earlier : Location) : Except Overflow String := do
  return s!"(previous declaration at {← earlier.text})"

def message (document : String) : Rule → Except Overflow String
  | unexpectedWord text => .ok s!"unexpected `{text}`, expected a definition"
  | noDefinitions => .ok s!"no definitions found in document `{document}`"
  | shape construct defect => .ok s!"invalid {construct.text}: {defect.text}"
  | badIdentifier text => .ok s!"`{text}` is not a valid identifier"
  | redefined name earlier => do
    return s!"identifier `{name}` has been declared before in this document " ++
      (← previously ⟨document, earlier⟩)
  | repeated clash earlier => do return s!"{clash.text} " ++ (← previously ⟨document, earlier⟩)
  | noTokens => .ok "a meaningful line produced no tokens"

def help? : Rule → Option String
  | unexpectedWord text =>
    if (Directive.ofWord? text).isSome then
      some "header directives must appear before the first definition"
    else (Keyword.suggest text).map fun keyword => s!"did you mean `{keyword}`?"
  | noDefinitions =>
    some ("a document needs at least one const, typedef, enum, senum, struct, " ++
      "exception or service")
  | badIdentifier _ =>
    some ("identifiers start with a letter or `_` and continue with letters, digits, " ++
      "`_`, `-` or `.`")
  | _ => none

end Rule

def Violation.fault (violation : Violation) (document : String) : Fault where
  category := violation.rule.category document
  message := violation.rule.message document
  location? :=
    match violation.rule with
    | .noTokens => none
    | _ => some ⟨document, violation.line⟩
  help? := violation.rule.help?

end ThriftIdl

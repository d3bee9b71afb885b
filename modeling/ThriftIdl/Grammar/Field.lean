import ThriftIdl.Grammar.Value
import ThriftIdl.Text.Integer

/-!
Fields: the members of structs and exceptions, parameters, and the exceptions a function throws.
In one list no two fields share an id or a name.
-/

namespace ThriftIdl.Grammar

/-- The requiredness that a word before the type states. -/
def requirednessOf : String → Requiredness
  | "required" => .required
  | "optional" => .optional
  | _ => .unstated

def readFieldType (last : Nat) (tokens : List Token) :
    Reading ((Requiredness × Word) × List Token) := do
  let (word, rest) ← expectWord .field .fieldType last tokens
  match requirednessOf word.text with
  | .unstated => .ok ((.unstated, word), rest)
  | stated =>
    let (type, rest) ← expectWord .field .fieldType last rest
    .ok ((stated, type), rest)

def readDefault (last : Nat) (tokens : List Token) : Reading (Option String × List Token) :=
  match eat (.mark '=') tokens with
  | (true, rest) => do
    let (value, rest) ← readValue .field last rest
    .ok (some value, rest)
  | (false, rest) => .ok (none, rest)

def readFieldId (last : Nat) (tokens : List Token) :
    Reading ((Int16 × Nat) × List Token) := do
  let (word, rest) ← expectWord .field .fieldId last tokens
  match Text.decimal16? word.text with
  | none => misshapen .field word.line (.notInt16 word.text)
  | some id =>
    match eat (.mark ':') rest with
    | (true, rest) => .ok ((id, word.line), rest)
    | (false, rest) => misshapen .field (lineOf last rest) (.noColon id)

/-- A field: `<id>: [required|optional] <type> <name> [= <default>]`. -/
def readField (last : Nat) (tokens : List Token) : Reading (Field × List Token) := do
  let ((id, line), rest) ← readFieldId last tokens
  let ((requiredness, type), rest) ← readFieldType last rest
  let (name, rest) ← expectWord .field .fieldName last rest
  checkIdentifier name
  let (default?, rest) ← readDefault last rest
  .ok (⟨id, requiredness, type.text, name.text, default?, line⟩, rest)

/-- No field before it may have the field's id or name. -/
def checkNew (taken : List Field) (field : Field) : Reading Unit :=
  match taken.find? (·.id == field.id) with
  | some earlier => .error ⟨field.line, .repeated (.fieldId field.id earlier.name) earlier.line⟩
  | none =>
    match taken.find? (·.name == field.name) with
    | some earlier => .error ⟨field.line, .repeated (.fieldName field.name) earlier.line⟩
    | none => .ok ()

/-- The id after another in a list of exceptions. It stays at the greatest id. -/
def nextId (taken : List Field) : Int16 :=
  match taken.getLast? with
  | none => 1
  | some field => if field.id = Int16.maxValue then field.id else field.id + 1

/-- An exception given by its type alone: its id follows the one before it, and its type is its
name. -/
def readBareException (last : Nat) (taken : List Field) (tokens : List Token) :
    Reading (Field × List Token) := do
  let (type, rest) ← expectWord .field .exceptionType last tokens
  .ok (⟨nextId taken, .unstated, type.text, type.text, none, type.line⟩, rest)

/-- A field follows with its id: the token after the next one is a colon. -/
def startsField : List Token → Bool
  | _ :: token :: _ => token.lexeme == .mark ':'
  | _ => false

/-- An entry of a list in parentheses, which among exceptions may be a bare type. -/
def readEntry (bare : Bool) (last : Nat) (taken : List Field) (tokens : List Token) :
    Reading (Field × List Token) :=
  if bare && !startsField tokens then readBareException last taken tokens
  else readField last tokens

end ThriftIdl.Grammar

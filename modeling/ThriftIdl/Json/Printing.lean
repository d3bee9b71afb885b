import ThriftIdl.Json
import ThriftIdl.Text.Integer

/-!
JSON text laid out for reading: every item and member on a line of its own, two blanks deeper
than what holds it. Empty arrays and objects are `[]` and `{}`.
-/

namespace ThriftIdl.Json

def hexDigit (n : Nat) : Char :=
  if n < 10 then Char.ofNat ('0'.toNat + n) else Char.ofNat ('a'.toNat + (n - 10))

/-- A character inside a string: quotes, backslashes and control characters are escaped. -/
def escape (c : Char) : List Char :=
  if c = '"' then ['\\', '"']
  else if c = '\\' then ['\\', '\\']
  else if c = '\n' then ['\\', 'n']
  else if c = '\r' then ['\\', 'r']
  else if c = '\t' then ['\\', 't']
  else if c = Char.ofNat 8 then ['\\', 'b']
  else if c = Char.ofNat 12 then ['\\', 'f']
  else if c.toNat < 0x20 then
    ['\\', 'u', '0', '0', hexDigit (c.toNat / 16), hexDigit (c.toNat % 16)]
  else [c]

def quoted (text : String) : List Char := '"' :: text.toList.flatMap escape ++ ['"']

/-- The start of a line at a depth. -/
def lineStart (depth : Nat) : List Char := '\n' :: List.replicate (2 * depth) ' '

/-- The parts of an array or object on lines of their own, parted by commas. -/
def lineUp (depth : Nat) : List (List Char) → List Char
  | [] => []
  | [part] => lineStart depth ++ part
  | part :: rest => lineStart depth ++ part ++ ',' :: lineUp depth rest

def bracketed (opening closing : Char) (depth : Nat) (parts : List (List Char)) : List Char :=
  if parts.isEmpty then [opening, closing]
  else opening :: lineUp (depth + 1) parts ++ lineStart depth ++ [closing]

mutual

/-- The text of a value at a depth. A number that is no integer has no text of its own. -/
def print (depth : Nat) : Json → List Char
  | null => "null".toList
  | bool true => "true".toList
  | bool false => "false".toList
  | integer value => (Text.ofInt value).toList
  | fractional => "0.0".toList
  | string text => quoted text
  | array items => bracketed '[' ']' depth (printItems (depth + 1) items)
  | object members => bracketed '{' '}' depth (printMembers (depth + 1) members)

def printItems (depth : Nat) : List Json → List (List Char)
  | [] => []
  | item :: rest => print depth item :: printItems depth rest

def printMembers (depth : Nat) : List (String × Json) → List (List Char)
  | [] => []
  | (key, value) :: rest =>
    (quoted key ++ ':' :: ' ' :: print depth value) :: printMembers depth rest

end

def pretty (value : Json) : String := String.ofList (print 0 value)

end ThriftIdl.Json

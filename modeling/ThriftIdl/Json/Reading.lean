import ThriftIdl.Json.Numeral
import ThriftIdl.Table

/-!
Reading JSON text, strictly: only the grammar's blanks between tokens, no control characters and
no lone surrogates in strings, and nothing after the value. Arrays and objects nest at most 127
deep. If an object has a key twice, the last value stands in the first place.
-/

namespace ThriftIdl.Json

/-- How deep arrays and objects may nest. -/
def maxDepth : Nat := 127

def isSpace (c : Char) : Bool := c == ' ' || c == '\n' || c == '\r' || c == '\t'

def skipSpace (text : List Char) : List Char := text.dropWhile isSpace

/-- The text after the given one, if it starts with it. -/
def after? : List Char → List Char → Option (List Char)
  | [], text => some text
  | _ :: _, [] => none
  | c :: start, d :: text => if c = d then after? start text else none

/-- The UTF-16 unit that four hexadecimal digits write. -/
def unit? (a b c d : Char) : Option Nat := Text.natural? 16 [a, b, c, d]

def plain? (unit : Nat) : Option Char :=
  if 0xD800 ≤ unit ∧ unit ≤ 0xDFFF then none else some (Char.ofNat unit)

/-- The character of a leading and a trailing surrogate. -/
def pair? (lead trail : Nat) : Option Char :=
  if 0xD800 ≤ lead ∧ lead ≤ 0xDBFF ∧ 0xDC00 ≤ trail ∧ trail ≤ 0xDFFF then
    some (Char.ofNat (0x10000 + (lead - 0xD800) * 0x400 + (trail - 0xDC00)))
  else none

/-- The character that a letter after a backslash stands for. -/
def escaped? : Char → Option Char
  | '"' => some '"'
  | '\\' => some '\\'
  | '/' => some '/'
  | 'b' => some (Char.ofNat 8)
  | 'f' => some (Char.ofNat 12)
  | 'n' => some '\n'
  | 'r' => some '\r'
  | 't' => some '\t'
  | _ => none

/-- The first piece of a result, put before the second. -/
def prepend (c : Char) (result : List Char × List Char) : List Char × List Char :=
  (c :: result.1, result.2)

/-- The characters of a string up to its closing quote, and what follows it. -/
def readString : List Char → Option (List Char × List Char)
  | [] => none
  | '"' :: rest => some ([], rest)
  | '\\' :: 'u' :: a :: b :: c :: d :: rest =>
    match unit? a b c d with
    | none => none
    | some unit =>
      match plain? unit, rest with
      | some char, rest => (readString rest).map (prepend char)
      | none, '\\' :: 'u' :: e :: f :: g :: h :: rest =>
        match (unit? e f g h).bind (pair? unit) with
        | some char => (readString rest).map (prepend char)
        | none => none
      | none, _ => none
  | '\\' :: c :: rest =>
    match escaped? c with
    | some char => (readString rest).map (prepend char)
    | none => none
  | c :: rest => if c.toNat < 0x20 then none else (readString rest).map (prepend c)

mutual

/-- A value, and what follows it. Each step takes from `fuel`; `depth` is how deep arrays and
objects may still nest. -/
def readValue (fuel depth : Nat) (text : List Char) : Option (Json × List Char) :=
  match fuel with
  | 0 => none
  | fuel + 1 =>
    match skipSpace text with
    | [] => none
    | '"' :: rest => (readString rest).map fun (chars, rest) => (.string (String.ofList chars), rest)
    | '[' :: rest =>
      match depth with
      | 0 => none
      | depth + 1 =>
        match skipSpace rest with
        | ']' :: rest => some (.array [], rest)
        | rest => (readItems fuel depth rest).map fun (items, rest) => (.array items, rest)
    | '{' :: rest =>
      match depth with
      | 0 => none
      | depth + 1 =>
        match skipSpace rest with
        | '}' :: rest => some (.object [], rest)
        | rest =>
          (readMembers fuel depth rest).map fun (members, rest) =>
            (.object (Table.ofPairs members), rest)
    | 'n' :: rest => (after? "ull".toList rest).map fun rest => (.null, rest)
    | 't' :: rest => (after? "rue".toList rest).map fun rest => (.bool true, rest)
    | 'f' :: rest => (after? "alse".toList rest).map fun rest => (.bool false, rest)
    | text => readNumber text

/-- The items of an array, at least one, and what follows its bracket. -/
def readItems (fuel depth : Nat) (text : List Char) : Option (List Json × List Char) :=
  match fuel with
  | 0 => none
  | fuel + 1 => do
    let (item, rest) ← readValue fuel depth text
    match skipSpace rest with
    | ',' :: rest =>
      let (items, rest) ← readItems fuel depth rest
      return (item :: items, rest)
    | ']' :: rest => return ([item], rest)
    | _ => none

/-- The members of an object, at least one, and what follows its brace. -/
def readMembers (fuel depth : Nat) (text : List Char) :
    Option (List (String × Json) × List Char) :=
  match fuel with
  | 0 => none
  | fuel + 1 =>
    match skipSpace text with
    | '"' :: rest => do
      let (key, rest) ← readString rest
      match skipSpace rest with
      | ':' :: rest =>
        let (value, rest) ← readValue fuel depth rest
        match skipSpace rest with
        | ',' :: rest =>
          let (members, rest) ← readMembers fuel depth rest
          return ((String.ofList key, value) :: members, rest)
        | '}' :: rest => return ([(String.ofList key, value)], rest)
        | _ => none
      | _ => none
    | _ => none

end

/-- The value that a text writes. Every step of reading takes a character, or is the first of two
steps that do, so twice the length is fuel enough. -/
def ofText? (text : String) : Option Json :=
  let chars := text.toList
  match readValue (2 * chars.length + 2) maxDepth chars with
  | some (value, rest) => if (skipSpace rest).isEmpty then some value else none
  | none => none

end ThriftIdl.Json

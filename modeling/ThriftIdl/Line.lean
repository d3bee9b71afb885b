import ThriftIdl.Text.Blank

/-!
The lines of a document that carry meaning. A line is cleaned of its comment, of surrounding
blanks and of the list separators at its end. If something is left, the line is meaningful.
-/

namespace ThriftIdl

/-- A meaningful line: its index in the document and its cleaned text. -/
structure Line where
  number : Nat
  text : String
deriving DecidableEq

namespace Line

def isQuote (c : Char) : Bool := c == '"' || c == '\''

/-- The text up to its comment. A comment starts at `#` or `//` outside literals. Inside a
literal, which `quote` will close, a backslash takes the next character with it. -/
def uncomment (quote : Option Char) : List Char → List Char
  | [] => []
  | c :: rest =>
    match quote, c, rest with
    | some q, '\\', d :: more => '\\' :: d :: uncomment (some q) more
    | some q, c, rest => c :: uncomment (if c = q then none else some q) rest
    | none, '#', _ => []
    | none, '/', '/' :: _ => []
    | none, c, rest => c :: uncomment (if isQuote c then some c else none) rest

/-- The separators that may end a line. -/
def isSeparator (c : Char) : Bool := c == ',' || c == ';'

def clean (raw : List Char) : List Char :=
  Text.trimEnd (Text.dropEndWhile isSeparator (Text.trim (uncomment none raw)))

/-- The meaningful line with the index, if the raw text leaves one. -/
def ofRaw? (number : Nat) (raw : String) : Option Line :=
  match clean raw.toList with
  | [] => none
  | c :: text => some ⟨number, String.ofList (c :: text)⟩

/-- The meaningful lines of raw lines counted from `first`. -/
def meaningfulFrom (first : Nat) : List String → List Line
  | [] => []
  | raw :: rest => (ofRaw? first raw).toList ++ meaningfulFrom (first + 1) rest

def meaningful (lines : List String) : List Line := meaningfulFrom 0 lines

end Line

end ThriftIdl

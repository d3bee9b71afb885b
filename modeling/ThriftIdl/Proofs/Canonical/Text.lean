import ThriftIdl.Proofs.Grammar.WellFormed

/-!
The canonical text of definitions. A constant or typedef takes one line. Any other definition takes
a line that opens its block, one line for each member and a line that closes it. A line is made of
pieces: lexemes, and blanks between them.
-/

namespace ThriftIdl.Canonical

/-- A piece of a line. -/
inductive Piece where
  | lexeme (lexeme : Lexeme)
  | gap

namespace Piece

/-- The piece that is a word. -/
def word (text : String) : Piece := lexeme (.word text)

/-- The piece that is a mark. -/
def mark (c : Char) : Piece := lexeme (.mark c)

/-- The characters of a piece. -/
def text : Piece → List Char
  | lexeme found => found.text.toList
  | gap => [' ']

/-- The lexeme of a piece that is no gap. -/
def lexeme? : Piece → Option Lexeme
  | lexeme found => some found
  | gap => none

end Piece

/-- The characters of a line. -/
def lineText (line : List Piece) : List Char := line.flatMap Piece.text

/-- The lexemes of a line. -/
def lexemesOf (line : List Piece) : List Lexeme := line.filterMap Piece.lexeme?

/-- A value, which is a literal if it starts with a quote. -/
def valuePiece (value : String) : Piece :=
  if value.toList.head? = some '"' then .lexeme (.literal value) else .word value

/-- The pieces for a default value. -/
def defaultPieces : Option String → List Piece
  | none => []
  | some value => [.gap, .mark '=', .gap, valuePiece value]

/-- The pieces that state how a field must be present. -/
def requirednessPieces : Requiredness → List Piece
  | .required => [.word "required", .gap]
  | .optional => [.word "optional", .gap]
  | .unstated => []

/-- The pieces for a field. -/
def fieldPieces (field : Field) : List Piece :=
  [.word (Text.ofInt field.id.toInt), .mark ':', .gap] ++ requirednessPieces field.requiredness ++
    [.word field.type, .gap, .word field.name] ++ defaultPieces field.default?

/-- The pieces for fields with a comma before each. -/
def furtherPieces (fields : List Field) : List Piece :=
  fields.flatMap fun field => [.mark ',', .gap] ++ fieldPieces field

/-- The pieces for fields with a comma between them. -/
def separatedPieces : List Field → List Piece
  | [] => []
  | field :: rest => fieldPieces field ++ furtherPieces rest

/-- The pieces for fields in parentheses. -/
def listPieces (fields : List Field) : List Piece :=
  .mark '(' :: (separatedPieces fields ++ [.mark ')'])

/-- The pieces for the exceptions of a function. -/
def throwsPieces : List Field → List Piece
  | [] => []
  | field :: rest => [.gap, .word "throws", .gap] ++ listPieces (field :: rest)

/-- The pieces for a function. -/
def functionPieces (function : Function) : List Piece :=
  (if function.oneway then [.word "oneway", .gap] else []) ++
    [.word (function.returnType?.getD voidWord), .gap, .word function.name] ++
    listPieces function.params ++ throwsPieces function.throws

/-- The pieces for a value of an enum. -/
def enumValuePieces (value : EnumValue) : List Piece :=
  .word value.name ::
    if value.explicit then [.gap, .mark '=', .gap, .word (Text.ofInt value.value.toInt)] else []

/-- The pieces for a value of a senum. -/
def senumValuePieces (value : String) : List Piece := [.lexeme (.literal ("\"" ++ value ++ "\""))]

/-- The lines for the members of a body. -/
def memberLines : Body → List (List Piece)
  | .const .. => []
  | .typedef .. => []
  | .enum values => values.map enumValuePieces
  | .senum values => values.map senumValuePieces
  | .struct fields => fields.map fieldPieces
  | .exception fields => fields.map fieldPieces
  | .service _ functions => functions.map functionPieces

/-- The pieces for the base of a service. -/
def basePieces : Body → List Piece
  | .service (some base) _ => [.gap, .word "extends", .gap, .word base]
  | _ => []

/-- The pieces of a definition's first line after its name. -/
def tailPieces : Body → List Piece
  | .const _ value => [.gap, .mark '=', .gap, valuePiece value]
  | .typedef _ => []
  | body => basePieces body ++ [.gap, .mark '{']

/-- The pieces of a definition's first line between its kind and its name. -/
def typePieces : Body → List Piece
  | .const type _ => [.word type, .gap]
  | .typedef type => [.word type, .gap]
  | _ => []

/-- The first line of a definition. -/
def firstLine (definition : Definition) : List Piece :=
  [.word definition.kind.word, .gap] ++ typePieces definition.body ++ [.word definition.name] ++
    tailPieces definition.body

/-- The lines of a definition after its first. -/
def furtherLines : Body → List (List Piece)
  | .const .. => []
  | .typedef .. => []
  | body => memberLines body ++ [[.mark '}']]

/-- The lines of a definition. -/
def definitionLines (definition : Definition) : List (List Piece) :=
  firstLine definition :: furtherLines definition.body

/-- The canonical text of definitions. Each line ends in a line feed. -/
def text (definitions : List Definition) : String :=
  String.ofList ((definitions.flatMap definitionLines).flatMap fun line => lineText line ++ ['\n'])

example : text [
      ⟨⟨"LIMIT", 0⟩, .const "i32" "5"⟩,
      ⟨⟨"Mode", 0⟩, .enum [⟨"A", 0, false, 0⟩, ⟨"B", 4, true, 0⟩]⟩,
      ⟨⟨"Desk", 0⟩, .service (some "Base") [
        ⟨"take", some "Item", false,
          [⟨1, .required, "i32", "id", some "5", 0⟩,
            ⟨2, .unstated, "map<i32,i64>", "wait", none, 0⟩],
          [⟨1, .unstated, "Late", "late", none, 0⟩], 0⟩]⟩] =
    "const i32 LIMIT = 5\nenum Mode \x7b\nA\nB = 4\n\x7d\nservice Desk extends Base \x7b\n" ++
      "Item take(1: required i32 id = 5, 2: map<i32,i64> wait) throws (1: Late late)\n\x7d\n" := by
  decide +kernel

/-- The characters of words that are values. -/
def isValueChar (c : Char) : Bool := c.isAlphanum || "_.+-".toList.contains c

/-- The characters that may stand in a literal without a backslash. -/
def isPlain (c : Char) : Bool := c != '"' && c != '\\' && c != '\n'

/-- The text of a type: an identifier, or one with types in angle brackets. -/
inductive TypeText : List Char → Prop
  | name {name : List Char} (h : Identifier.spelledBy name = true) : TypeText name
  | applied {name first : List Char} {more : List (List Char)}
      (hname : Identifier.spelledBy name = true) (hfirst : TypeText first)
      (hmore : ∀ type ∈ more, TypeText type) :
      TypeText (name ++ '<' :: (first ++ (more.flatMap (',' :: ·) ++ ['>'])))

/-- The words that mean something else where a type may stand. -/
def reserved : List String := ["required", "optional", "oneway", "throws", "void"]

/-- A type that can be printed and read again. -/
def IsType (type : String) : Prop := TypeText type.toList ∧ type ∉ reserved

/-- A value that can be printed and read again: a word or a plain literal. -/
def IsValue (value : String) : Prop :=
  (value.toList ≠ [] ∧ ∀ c ∈ value.toList, isValueChar c = true) ∨
    ∃ inner, value.toList = '"' :: (inner ++ ['"']) ∧ ∀ c ∈ inner, isPlain c = true

/-- A field whose names, type and default value can be printed and read again. -/
structure PrintsField (field : Field) : Prop where
  name : Identifier.isValid field.name = true
  type : IsType field.type
  default : ∀ value ∈ field.default?, IsValue value

/-- A function whose names and types can be printed and read again. -/
structure PrintsFunction (function : Function) : Prop where
  name : Identifier.isValid function.name = true
  returnType : ∀ type ∈ function.returnType?, IsType type
  params : ∀ field ∈ function.params, PrintsField field
  throws : ∀ field ∈ function.throws, PrintsField field

/-- Each value without a number of its own is the one before it plus one; the first is `next`. -/
def Numbered (next : Int) : List EnumValue → Prop
  | [] => True
  | value :: rest =>
    (value.explicit = false → value.value.toInt = next) ∧ Numbered (value.value.toInt + 1) rest

/-- A body that can be printed and read again. -/
def PrintsBody : Body → Prop
  | .const type value => IsType type ∧ IsValue value
  | .typedef type => IsType type
  | .enum values => (∀ value ∈ values, Identifier.isValid value.name = true) ∧ Numbered 0 values
  | .senum values => ∀ value ∈ values, ∀ c ∈ value.toList, isPlain c = true
  | .struct fields => ∀ field ∈ fields, PrintsField field
  | .exception fields => ∀ field ∈ fields, PrintsField field
  | .service base? functions =>
    (∀ base ∈ base?, Identifier.isValid base = true) ∧
      ∀ function ∈ functions, PrintsFunction function

end ThriftIdl.Canonical

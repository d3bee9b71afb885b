import ThriftIdl.Grammar.Block
import ThriftIdl.Grammar.Enumeration
import ThriftIdl.Grammar.Function

/-!
Definitions: the first word of a line says which kind follows. Constants and typedefs take one
line, the other kinds a block. Reading ends at the first broken rule.
-/

namespace ThriftIdl.Grammar

/-- A definition and the number of lines it takes after its first. -/
structure Extent where
  definition : Definition
  used : Nat

/-- The rest of a constant: `<type> <identifier> = <value>`. -/
def readConst (taken : List Definition) (start : Nat) (tokens : List Token) :
    Reading Definition :=
  let wrong := misshapen (.definition .const) start (.opening .const)
  match tokens with
  | ⟨.word type, _⟩ :: ⟨.word name, line⟩ :: ⟨.mark '=', _⟩ :: rest =>
    match readValue (.definition .const) start rest with
    | .ok (value, []) => do
      let declared ← declare taken ⟨name, line⟩
      .ok ⟨declared, .const type value⟩
    | _ => wrong
  | _ => wrong

/-- The rest of a typedef: `<type> <identifier>`. -/
def readTypedef (taken : List Definition) (start : Nat) (tokens : List Token) :
    Reading Definition :=
  match tokens with
  | [⟨.word type, _⟩, ⟨.word name, line⟩] => do
    let declared ← declare taken ⟨name, line⟩
    .ok ⟨declared, .typedef type⟩
  | _ => misshapen (.definition .typedef) start (.opening .typedef)

def readBlockName (kind : Kind) (taken : List Definition) (start : Nat) (tokens : List Token) :
    Reading (Declared × List Token) :=
  match tokens with
  | ⟨.word name, line⟩ :: rest => do
    let declared ← declare taken ⟨name, line⟩
    .ok (declared, rest)
  | _ => misshapen (.definition kind) start (.opening kind)

/-- The service that another one extends, if it does, and the tokens after it. -/
def readBase (start : Nat) (tokens : List Token) : Reading (Option String × List Token) :=
  match eat (.word "extends") tokens with
  | (false, rest) => .ok (none, rest)
  | (true, ⟨.word base, line⟩ :: rest) => do
    checkIdentifier ⟨base, line⟩
    .ok (some base, rest)
  | (true, _) => misshapen (.definition .service) start .noBaseService

/-- The body of a definition of a kind with a block, given its tokens. -/
def readBody (kind : Kind) (base? : Option String) (block : Block) : Reading Body :=
  match kind with
  | .enum => do
    let values ← readEnumValues [] block.tokens
    .ok (.enum values)
  | .senum => do
    let values ← readSenumValues [] block.tokens
    .ok (.senum (values.map (·.text)))
  | .exception => do
    let fields ← readFields block.last [] block.tokens
    .ok (.exception fields)
  | .service => do
    let functions ← readFunctions block.last [] block.tokens
    .ok (.service base? functions)
  | _ => do
    let fields ← readFields block.last [] block.tokens
    .ok (.struct fields)

/-- The rest of a definition with a block: its name, its base if it is a service, and its
block. -/
def readBlockDefinition (kind : Kind) (taken : List Definition) (start : Nat)
    (tokens : List Token) (lines : List Line) : Reading Extent := do
  let (declared, rest) ← readBlockName kind taken start tokens
  let (base?, rest) ← if kind = .service then readBase start rest else .ok (none, rest)
  let block ← readBlock kind start rest lines
  let body ← readBody kind base? block
  .ok ⟨⟨declared, body⟩, block.used⟩

/-- The definition that a line starts, given the definitions before it and the lines after
it. -/
def readDefinition (taken : List Definition) (line : Line) (lines : List Line) :
    Reading Extent :=
  match line.tokens with
  | [] => .error ⟨line.number, .noTokens⟩
  | token :: rest =>
    match token.lexeme with
    | .word word =>
      match Kind.ofWord? word with
      | none => .error ⟨token.line, .unexpectedWord word⟩
      | some .const => do
        let definition ← readConst taken line.number rest
        .ok ⟨definition, 0⟩
      | some .typedef => do
        let definition ← readTypedef taken line.number rest
        .ok ⟨definition, 0⟩
      | some kind => readBlockDefinition kind taken line.number rest lines
    | _ => .error ⟨token.line, .unexpectedWord token.text⟩

/-- The definitions of the lines, after those already taken. -/
def readDefinitions (taken : List Definition) : List Line → Reading (List Definition)
  | [] => .ok taken
  | line :: rest => do
    let extent ← readDefinition taken line rest
    readDefinitions (taken ++ [extent.definition]) (rest.drop extent.used)
termination_by lines => lines.length
decreasing_by
  simp only [List.length_drop, List.length_cons]
  omega

end ThriftIdl.Grammar

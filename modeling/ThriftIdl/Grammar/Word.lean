import ThriftIdl.Definition
import ThriftIdl.Identifier
import ThriftIdl.Token
import ThriftIdl.Violation

/-!
The steps that all of the grammar shares: the line at which reading stands, an expected word, an
optional token, and the checks on names. A reader of members works on the tokens still to come;
`last` is the line to report when there are none.
-/

namespace ThriftIdl.Grammar

/-- A reading of part of a document, or the first rule it breaks. -/
abbrev Reading (α : Type) := Except Violation α

structure Word where
  text : String
  line : Nat

def lineOf (last : Nat) : List Token → Nat
  | [] => last
  | token :: _ => token.line

/-- The construct at the line does not have its shape. -/
def misshapen {α : Type} (construct : Construct) (line : Nat) (defect : Defect) : Reading α :=
  .error ⟨line, .shape construct defect⟩

def expectWord (construct : Construct) (what : Expectation) (last : Nat) :
    List Token → Reading (Word × List Token)
  | ⟨.word text, line⟩ :: rest => .ok (⟨text, line⟩, rest)
  | token :: _ => misshapen construct token.line (.expected what (some token.text))
  | [] => misshapen construct last (.expected what none)

/-- Whether the next token is the one looked for, and the tokens after it if so. -/
def eat (lexeme : Lexeme) : List Token → Bool × List Token
  | token :: rest => if token.lexeme = lexeme then (true, rest) else (false, token :: rest)
  | [] => (false, [])

/-- The tokens from the first one that is no separator. -/
def skipSeparators (tokens : List Token) : List Token := tokens.dropWhile Token.isSeparator

/-- The word must be an identifier. -/
def checkIdentifier (word : Word) : Reading Unit :=
  if Identifier.isValid word.text then .ok () else .error ⟨word.line, .badIdentifier word.text⟩

/-- The word must be an identifier that no definition read before it has. -/
def declare (taken : List Definition) (word : Word) : Reading Declared := do
  checkIdentifier word
  match Definition.lookup? taken word.text with
  | some earlier => .error ⟨word.line, .redefined word.text earlier.line⟩
  | none => .ok ⟨word.text, word.line⟩

/-- A reading in two steps succeeds exactly if both of them do. -/
theorem bind_eq_ok {α β : Type} {first : Reading α} {second : α → Reading β} {result : β} :
    first >>= second = .ok result ↔
      ∃ value, first = .ok value ∧ second value = .ok result := by
  cases first <;> simp [bind, Except.bind]

/-- `rest` is what a step of reading leaves of the tokens: they end in it, and at least one stands
before it. -/
structure Leaves (tokens rest : List Token) : Prop where
  suffix : rest <:+ tokens
  length_lt : rest.length < tokens.length

theorem Leaves.of_suffix {tokens middle rest : List Token} (h : Leaves tokens middle)
    (hrest : rest <:+ middle) : Leaves tokens rest :=
  ⟨hrest.trans h.suffix, Nat.lt_of_le_of_lt hrest.length_le h.length_lt⟩

theorem Leaves.after_suffix {tokens middle rest : List Token} (h : Leaves middle rest)
    (hmiddle : middle <:+ tokens) : Leaves tokens rest :=
  ⟨h.suffix.trans hmiddle, Nat.lt_of_lt_of_le h.length_lt hmiddle.length_le⟩

theorem leaves_cons {token : Token} {tokens rest : List Token} (h : rest <:+ tokens) :
    Leaves (token :: tokens) rest :=
  ⟨h.trans (List.suffix_cons token tokens), Nat.lt_succ_of_le h.length_le⟩

theorem expectWord_leaves {construct : Construct} {what : Expectation} {last : Nat}
    {tokens rest : List Token} {word : Word}
    (h : expectWord construct what last tokens = .ok (word, rest)) : Leaves tokens rest := by
  unfold expectWord at h
  split at h
  · cases h
    exact leaves_cons List.suffix_rfl
  · cases h
  · cases h

theorem eat_suffix {lexeme : Lexeme} {tokens rest : List Token} {found : Bool}
    (h : eat lexeme tokens = (found, rest)) : rest <:+ tokens := by
  unfold eat at h
  split at h
  · split at h
    · cases h
      exact List.suffix_cons _ _
    · cases h
      exact List.suffix_rfl
  · cases h
    exact List.suffix_rfl

theorem skipSeparators_suffix (tokens : List Token) : skipSeparators tokens <:+ tokens :=
  List.dropWhile_suffix _

end ThriftIdl.Grammar

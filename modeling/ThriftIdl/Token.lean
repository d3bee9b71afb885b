import ThriftIdl.Line

/-!
The tokens of a line: words, literals and marks. A word may hold blanks and marks inside `<...>`
and `[...]`; blanks directly inside `<...>` are dropped. A literal that is not closed extends to
the end of its line.
-/

namespace ThriftIdl

/-- What a token is. A literal's text holds its quotes. -/
inductive Lexeme where
  | word (text : String)
  | literal (text : String)
  | mark (c : Char)
deriving DecidableEq

namespace Lexeme

def text : Lexeme → String
  | word text => text
  | literal text => text
  | mark c => String.singleton c

def isMark (c : Char) : Bool := "{}()=:,;".toList.contains c

/-- The characters that end a word outside brackets. -/
def endsWord (c : Char) : Bool := Text.isBlank c || isMark c || Line.isQuote c

/-- The rest of a literal up to the quote that closes it, and what follows. A backslash takes the
next character with it. -/
def splitLiteral (quote : Char) : List Char → List Char × List Char
  | [] => ([], [])
  | '\\' :: c :: rest =>
    let (text, after) := splitLiteral quote rest
    ('\\' :: c :: text, after)
  | c :: rest =>
    if c = quote then ([c], rest)
    else
      let (text, after) := splitLiteral quote rest
      (c :: text, after)

/-- The open brackets after a character, innermost first. A closing bracket counts only if it
fits the innermost open one. -/
def nest (opened : List Char) (c : Char) : List Char :=
  if c = '<' ∨ c = '[' then c :: opened
  else
    match opened with
    | top :: below =>
      if (c = '>' ∧ top = '<') ∨ (c = ']' ∧ top = '[') then below else opened
    | [] => []

/-- The rest of a word whose open brackets are given, and what follows. -/
def splitWord (opened : List Char) : List Char → List Char × List Char
  | [] => ([], [])
  | c :: rest =>
    if opened.isEmpty && endsWord c then ([], c :: rest)
    else
      let (text, after) := splitWord (nest opened c) rest
      if Text.isBlank c && opened.head? == some '<' then (text, after) else (c :: text, after)

/-- Nothing of a literal is lost. -/
theorem splitLiteral_append (quote : Char) (text : List Char) :
    (splitLiteral quote text).1 ++ (splitLiteral quote text).2 = text := by
  fun_induction splitLiteral quote text with
  | case1 => rfl
  | case2 c rest inner after hsplit ih =>
    rw [hsplit] at ih
    simp only [List.cons_append, ih]
  | case3 => rfl
  | case4 c rest _ _ inner after hsplit ih =>
    rw [hsplit] at ih
    simp only [List.cons_append, ih]

theorem splitLiteral_suffix (quote : Char) (text : List Char) :
    (splitLiteral quote text).2 <:+ text :=
  ⟨_, splitLiteral_append quote text⟩

theorem splitWord_suffix (opened text : List Char) : (splitWord opened text).2 <:+ text := by
  fun_induction splitWord opened text with
  | case1 => exact List.suffix_rfl
  | case2 => exact List.suffix_rfl
  | case3 opened c rest _ inner after hsplit _ ih =>
    rw [hsplit] at ih
    exact ih.trans (List.suffix_cons c rest)
  | case4 opened c rest _ inner after hsplit _ ih =>
    rw [hsplit] at ih
    exact ih.trans (List.suffix_cons c rest)

/-- The lexemes of a text, in order. -/
def scan : List Char → List Lexeme
  | [] => []
  | c :: rest =>
    if Text.isBlank c then scan rest
    else if isMark c then mark c :: scan rest
    else if Line.isQuote c then
      have := (splitLiteral_suffix c rest).length_le
      literal (String.ofList (c :: (splitLiteral c rest).1)) :: scan (splitLiteral c rest).2
    else
      have := (splitWord_suffix (nest [] c) rest).length_le
      word (String.ofList (c :: (splitWord (nest [] c) rest).1)) ::
        scan (splitWord (nest [] c) rest).2
termination_by text => text.length

end Lexeme

/-- A lexeme and the index of the line it was read from. -/
structure Token where
  lexeme : Lexeme
  line : Nat
deriving DecidableEq

namespace Token

def text (token : Token) : String := token.lexeme.text

/-- The token separates items of a list. -/
def isSeparator (token : Token) : Bool :=
  token.lexeme == .mark ',' || token.lexeme == .mark ';'

end Token

def Line.tokens (line : Line) : List Token :=
  (Lexeme.scan line.text.toList).map (⟨·, line.number⟩)

end ThriftIdl

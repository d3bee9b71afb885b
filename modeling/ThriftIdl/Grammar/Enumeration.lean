import ThriftIdl.Grammar.Word
import ThriftIdl.Text.Integer

/-!
The values of enums and senums. In an enum no two values share a name or a number, and a value
without a number follows the one before it. In a senum no two texts are equal.
-/

namespace ThriftIdl.Grammar

/-- The number that follows the values taken so far, if there is a greater one. -/
def nextNumber? (taken : List EnumValue) : Option Int32 :=
  match taken.getLast? with
  | none => some 0
  | some value => if value.value = Int32.maxValue then none else some (value.value + 1)

/-- The number of a value, whether it is written out, and the tokens after it. -/
def readNumber (taken : List EnumValue) (name : Word) (tokens : List Token) :
    Reading ((Int32 × Bool) × List Token) :=
  match eat (.mark '=') tokens with
  | (true, []) => misshapen .enumValue name.line (.noEnumNumber name.text)
  | (true, token :: rest) =>
    match Text.literal32? token.text with
    | some value => .ok ((value, true), rest)
    | none => misshapen .enumValue token.line (.notInt32 token.text)
  | (false, rest) =>
    match nextNumber? taken with
    | some value => .ok ((value, false), rest)
    | none => misshapen .enumValue name.line (.enumOverflow name.text)

/-- No value before it may have the value's name or number. -/
def checkNewValue (taken : List EnumValue) (value : EnumValue) : Reading Unit :=
  match taken.find? (·.name == value.name) with
  | some earlier => .error ⟨value.line, .repeated (.enumName value.name) earlier.line⟩
  | none =>
    match taken.find? (·.value == value.value) with
    | some earlier =>
      .error ⟨value.line,
        .repeated (.enumNumber value.value value.name earlier.name) earlier.line⟩
    | none => .ok ()

def readEnumValue (taken : List EnumValue) (name : Token) (tokens : List Token) :
    Reading (EnumValue × List Token) :=
  match name.lexeme with
  | .word text => do
    checkIdentifier ⟨text, name.line⟩
    let ((number, explicit), rest) ← readNumber taken ⟨text, name.line⟩ tokens
    let value : EnumValue := ⟨text, number, explicit, name.line⟩
    checkNewValue taken value
    .ok (value, rest)
  | _ => misshapen .enumValue name.line (.expected .enumValueName (some name.text))

theorem readNumber_suffix {taken : List EnumValue} {name : Word} {tokens rest : List Token}
    {number : Int32 × Bool} (h : readNumber taken name tokens = .ok (number, rest)) :
    rest <:+ tokens := by
  unfold readNumber at h
  split at h
  · cases h
  · next heat =>
    split at h
    · cases h
      exact (List.suffix_cons _ _).trans (eat_suffix heat)
    · cases h
  · next heat =>
    split at h
    · cases h
      exact eat_suffix heat
    · cases h

theorem readEnumValue_suffix {taken : List EnumValue} {name : Token}
    {tokens rest : List Token} {value : EnumValue}
    (h : readEnumValue taken name tokens = .ok (value, rest)) : rest <:+ tokens := by
  unfold readEnumValue at h
  split at h
  · obtain ⟨_, _, h⟩ := bind_eq_ok.1 h
    obtain ⟨⟨_, _⟩, hnumber, h⟩ := bind_eq_ok.1 h
    obtain ⟨_, _, h⟩ := bind_eq_ok.1 h
    cases h
    exact readNumber_suffix hnumber
  · cases h

/-- The values of an enum's body, after those already taken. -/
def readEnumValues (taken : List EnumValue) : List Token → Reading (List EnumValue)
  | [] => .ok taken
  | token :: rest =>
    if token.isSeparator then readEnumValues taken rest
    else
      match hread : readEnumValue taken token rest with
      | .error violation => .error violation
      | .ok (value, after) =>
        have := (readEnumValue_suffix hread).length_le
        readEnumValues (taken ++ [value]) after
termination_by tokens => tokens.length

/-- The text of a literal without the quote that opens it and the same quote at its end. -/
def unquote : List Char → List Char
  | [] => []
  | quote :: inner =>
    if Line.isQuote quote then
      if inner.getLast? = some quote then inner.dropLast else inner
    else quote :: inner

abbrev Quoted := Word

/-- The texts of a senum's body, after those already taken. -/
def readSenumValues (taken : List Quoted) : List Token → Reading (List Quoted)
  | [] => .ok taken
  | token :: rest =>
    if token.isSeparator then readSenumValues taken rest
    else
      match token.lexeme with
      | .literal text =>
        let value := String.ofList (unquote text.toList)
        match taken.find? (·.text == value) with
        | some earlier => .error ⟨token.line, .repeated (.senumText value) earlier.line⟩
        | none => readSenumValues (taken ++ [⟨value, token.line⟩]) rest
      | _ => misshapen .senumValue token.line (.expected .quotedString (some token.text))

end ThriftIdl.Grammar

import ThriftIdl.Proofs.Grammar.Readers

/-!
Reading does not look at line numbers. Renumbered lines are read to the renumbered definitions, or
break the same rule on the renumbered line. Each reader commutes with renumbering because the steps
that it is made of do.
-/

namespace ThriftIdl

/-- The token with its line renumbered. -/
def Token.renumber (f : Nat → Nat) (token : Token) : Token := ⟨token.lexeme, f token.line⟩

/-- The line with another number. -/
def Line.renumber (f : Nat → Nat) (line : Line) : Line := ⟨f line.number, line.text⟩

/-- The name with its line renumbered. -/
def Declared.renumber (f : Nat → Nat) (declared : Declared) : Declared :=
  ⟨declared.name, f declared.line⟩

/-- The value with its line renumbered. -/
def EnumValue.renumber (f : Nat → Nat) (value : EnumValue) : EnumValue :=
  { value with line := f value.line }

/-- The field with its line renumbered. -/
def Field.renumber (f : Nat → Nat) (field : Field) : Field := { field with line := f field.line }

/-- The function with all its lines renumbered. -/
def Function.renumber (f : Nat → Nat) (function : Function) : Function :=
  { function with
    params := function.params.map (Field.renumber f)
    throws := function.throws.map (Field.renumber f)
    line := f function.line }

/-- The body with the lines of its members renumbered. -/
def Body.renumber (f : Nat → Nat) : Body → Body
  | const type value => const type value
  | typedef type => typedef type
  | enum values => enum (values.map (EnumValue.renumber f))
  | senum values => senum values
  | struct fields => struct (fields.map (Field.renumber f))
  | exception fields => exception (fields.map (Field.renumber f))
  | service base? functions => service base? (functions.map (Function.renumber f))

/-- The definition with all its lines renumbered. -/
def Definition.renumber (f : Nat → Nat) (definition : Definition) : Definition :=
  ⟨definition.declared.renumber f, definition.body.renumber f⟩

/-- The rule with the line of the earlier declaration renumbered. -/
def Rule.renumber (f : Nat → Nat) : Rule → Rule
  | redefined name earlier => redefined name (f earlier)
  | repeated clash earlier => repeated clash (f earlier)
  | rule => rule

/-- The violation with its lines renumbered. -/
def Violation.renumber (f : Nat → Nat) (violation : Violation) : Violation :=
  ⟨f violation.line, violation.rule.renumber f⟩

namespace Line

theorem ofRaw?_renumber (f : Nat → Nat) (number : Nat) (raw : String) :
    (ofRaw? number raw).toList.map (Line.renumber f) = (ofRaw? (f number) raw).toList := by
  rw [ofRaw?, ofRaw?]
  split
  · rfl
  · rfl

/-- Lines counted on from another number are renumbered. -/
theorem meaningfulFrom_renumber (f : Nat → Nat) (first second : Nat) (raws : List String)
    (h : ∀ i < raws.length, f (first + i) = second + i) :
    (meaningfulFrom first raws).map (Line.renumber f) = meaningfulFrom second raws := by
  induction raws generalizing first second with
  | nil => rfl
  | cons raw raws ih =>
    have hfirst : f first = second := h 0 (Nat.succ_pos _)
    have hrest := ih (first + 1) (second + 1) (by
      intro i hi
      have hi' := h (i + 1) (Nat.succ_lt_succ hi)
      rw [show first + 1 + i = first + (i + 1) by omega, hi']
      omega)
    rw [meaningfulFrom, meaningfulFrom, List.map_append, ofRaw?_renumber, hfirst, hrest]

end Line

namespace Grammar

/-- The word with its line renumbered. -/
def Word.renumber (f : Nat → Nat) (word : Word) : Word := ⟨word.text, f word.line⟩

/-- The block with all its lines renumbered. -/
def Block.renumber (f : Nat → Nat) (block : Block) : Block :=
  ⟨block.tokens.map (Token.renumber f), f block.last, block.used⟩

/-- The part with all its lines renumbered. -/
def BlockPart.renumber (f : Nat → Nat) : BlockPart → BlockPart
  | opened depth tokens => opened depth (tokens.map (Token.renumber f))
  | closed tokens last after =>
    closed (tokens.map (Token.renumber f)) (f last) (after.map (Token.renumber f))

/-- The extent with its definition renumbered. -/
def Extent.renumber (f : Nat → Nat) (extent : Extent) : Extent :=
  ⟨extent.definition.renumber f, extent.used⟩

variable {α β γ δ : Type}

/-- The reading with its result changed by `g` and its violation renumbered. -/
def renumbered (f : Nat → Nat) (g : α → β) : Reading α → Reading β
  | .ok value => .ok (g value)
  | .error violation => .error (violation.renumber f)

/-- The result changed by `g`, and the tokens after it renumbered. -/
def withRest (f : Nat → Nat) (g : α → β) (pair : α × List Token) : β × List Token :=
  (g pair.1, pair.2.map (Token.renumber f))

variable (f : Nat → Nat)

@[simp] theorem renumbered_ok (g : α → β) (value : α) :
    renumbered f g (.ok value) = .ok (g value) := rfl

@[simp] theorem renumbered_error (g : α → β) (violation : Violation) :
    renumbered f g (.error violation) = .error (violation.renumber f) := rfl

@[simp] theorem renumbered_misshapen (g : α → β) (construct : Construct) (line : Nat)
    (defect : Defect) :
    renumbered f g (misshapen construct line defect) = misshapen construct (f line) defect := rfl

@[simp] theorem withRest_mk (g : α → β) (value : α) (rest : List Token) :
    withRest f g (value, rest) = (g value, rest.map (Token.renumber f)) := rfl

variable {f}

/-- Two steps commute with renumbering if the second does for the result of the first. -/
theorem bind_renumbered {g : α → β} {k : γ → δ} {first : Reading α} {second : α → Reading γ}
    {second' : β → Reading δ}
    (h : ∀ value, first = .ok value → second' (g value) = renumbered f k (second value)) :
    renumbered f g first >>= second' = renumbered f k (first >>= second) := by
  cases first with
  | error violation => rfl
  | ok value => exact h value rfl

theorem lineOf_renumber (last : Nat) (tokens : List Token) :
    lineOf (f last) (tokens.map (Token.renumber f)) = f (lineOf last tokens) := by
  cases tokens with
  | nil => rfl
  | cons token rest => rfl

theorem expectWord_renumber (construct : Construct) (what : Expectation) (last : Nat)
    (tokens : List Token) :
    expectWord construct what (f last) (tokens.map (Token.renumber f)) =
      renumbered f (withRest f (Word.renumber f)) (expectWord construct what last tokens) := by
  rcases tokens with _ | ⟨⟨_ | _ | _, line⟩, rest⟩
  · rfl
  · rfl
  · rfl
  · rfl

theorem eat_renumber (lexeme : Lexeme) (tokens : List Token) :
    eat lexeme (tokens.map (Token.renumber f)) =
      ((eat lexeme tokens).1, (eat lexeme tokens).2.map (Token.renumber f)) := by
  cases tokens with
  | nil => rfl
  | cons token rest =>
    rw [List.map_cons, eat, eat, Token.renumber]
    split
    · rfl
    · rfl

theorem skipSeparators_renumber (tokens : List Token) :
    skipSeparators (tokens.map (Token.renumber f)) =
      (skipSeparators tokens).map (Token.renumber f) := by
  rw [skipSeparators, skipSeparators, List.dropWhile_map]
  rfl

theorem checkIdentifier_renumber (word : Word) :
    checkIdentifier (word.renumber f) = renumbered f id (checkIdentifier word) := by
  rw [checkIdentifier, checkIdentifier, Word.renumber]
  split
  · rfl
  · rfl

/-- Looking up by a key that renumbering keeps finds the renumbered item. -/
theorem find?_map_renumber {κ : Type} [BEq κ] (renumber : α → α) (key : α → κ)
    (hkey : ∀ item, key (renumber item) = key item) (items : List α) (name : κ) :
    (items.map renumber).find? (key · == name) =
      (items.find? (key · == name)).map renumber := by
  rw [List.find?_map]
  congr 2
  funext item
  exact congrArg (· == name) (hkey item)

theorem lookup?_renumber (taken : List Definition) (name : String) :
    Definition.lookup? (taken.map (Definition.renumber f)) name =
      (Definition.lookup? taken name).map (Definition.renumber f) :=
  find?_map_renumber (Definition.renumber f) Definition.name (fun _ => rfl) taken name

theorem declare_renumber (taken : List Definition) (word : Word) :
    declare (taken.map (Definition.renumber f)) (word.renumber f) =
      renumbered f (Declared.renumber f) (declare taken word) := by
  rw [declare, declare, checkIdentifier_renumber]
  apply bind_renumbered
  intro _ _
  dsimp only [Word.renumber]
  rw [lookup?_renumber]
  cases Definition.lookup? taken word.text with
  | none => rfl
  | some earlier => rfl

theorem splitGroup_renumber (depth : Nat) (tokens : List Token) :
    splitGroup depth (tokens.map (Token.renumber f)) =
      (splitGroup depth tokens).map
        (Prod.map (List.map (Token.renumber f)) (List.map (Token.renumber f))) := by
  induction tokens generalizing depth with
  | nil => rfl
  | cons token rest ih =>
    rw [List.map_cons]
    by_cases hopen : token.lexeme = .mark '{'
    · have hopen' : (token.renumber f).lexeme = .mark '{' := hopen
      rw [splitGroup_of_open hopen, splitGroup_of_open hopen', ih, Option.map_map, Option.map_map]
      rfl
    · have hopen' : (token.renumber f).lexeme ≠ .mark '{' := hopen
      by_cases hclose : token.lexeme = .mark '}'
      · have hclose' : (token.renumber f).lexeme = .mark '}' := hclose
        cases depth with
        | zero =>
          rw [splitGroup_of_close_zero hclose, splitGroup_of_close_zero hclose']
          rfl
        | succ depth =>
          rw [splitGroup_of_close_succ hclose, splitGroup_of_close_succ hclose', ih,
            Option.map_map, Option.map_map]
          rfl
      · have hclose' : (token.renumber f).lexeme ≠ .mark '}' := hclose
        rw [splitGroup_of_other hopen hclose, splitGroup_of_other hopen' hclose', ih,
          Option.map_map, Option.map_map]
        rfl

theorem groupText_renumber (tokens : List Token) :
    groupText (tokens.map (Token.renumber f)) = groupText tokens := by
  rw [groupText, groupText, List.map_map]
  rfl

theorem readValue_renumber (construct : Construct) (last : Nat) (tokens : List Token) :
    readValue construct (f last) (tokens.map (Token.renumber f)) =
      renumbered f (withRest f id) (readValue construct last tokens) := by
  cases tokens with
  | nil => rfl
  | cons token rest =>
    rw [List.map_cons, readValue, readValue]
    dsimp only [Token.renumber]
    split
    · rfl
    · rfl
    · rw [splitGroup_renumber]
      cases splitGroup 0 rest with
      | none => rfl
      | some pair =>
        dsimp only [Option.map_some, renumbered_ok, withRest_mk, id_eq]
        rw [← groupText_renumber (token :: pair.1)]
        rfl
    · rfl

theorem readFieldType_renumber (last : Nat) (tokens : List Token) :
    readFieldType (f last) (tokens.map (Token.renumber f)) =
      renumbered f (withRest f (Prod.map id (Word.renumber f))) (readFieldType last tokens) := by
  rw [readFieldType, readFieldType, expectWord_renumber]
  apply bind_renumbered
  rintro ⟨word, rest⟩ -
  simp only [withRest_mk, Word.renumber]
  split
  · rfl
  · rw [expectWord_renumber]
    apply bind_renumbered
    intro _ _
    rfl

theorem readDefault_renumber (last : Nat) (tokens : List Token) :
    readDefault (f last) (tokens.map (Token.renumber f)) =
      renumbered f (withRest f id) (readDefault last tokens) := by
  rw [readDefault, readDefault, eat_renumber]
  rcases eat (.mark '=') tokens with ⟨_ | _, rest⟩
  · rfl
  · dsimp only
    rw [readValue_renumber]
    apply bind_renumbered
    intro _ _
    rfl

theorem readFieldId_renumber (last : Nat) (tokens : List Token) :
    readFieldId (f last) (tokens.map (Token.renumber f)) =
      renumbered f (withRest f (Prod.map id f)) (readFieldId last tokens) := by
  rw [readFieldId, readFieldId, expectWord_renumber]
  apply bind_renumbered
  rintro ⟨word, rest⟩ -
  simp only [withRest_mk, Word.renumber]
  split
  · rfl
  · rw [eat_renumber]
    rcases eat (.mark ':') rest with ⟨_ | _, rest⟩
    · dsimp only
      rw [lineOf_renumber]
      rfl
    · rfl

theorem readField_renumber (last : Nat) (tokens : List Token) :
    readField (f last) (tokens.map (Token.renumber f)) =
      renumbered f (withRest f (Field.renumber f)) (readField last tokens) := by
  rw [readField, readField, readFieldId_renumber]
  apply bind_renumbered
  rintro ⟨⟨id, line⟩, rest⟩ -
  simp only [withRest_mk, Prod.map_apply]
  rw [readFieldType_renumber]
  apply bind_renumbered
  rintro ⟨⟨requiredness, type⟩, rest⟩ -
  simp only [withRest_mk, Prod.map_apply]
  rw [expectWord_renumber]
  apply bind_renumbered
  rintro ⟨name, rest⟩ -
  simp only [withRest_mk]
  rw [checkIdentifier_renumber]
  apply bind_renumbered
  intro _ _
  rw [readDefault_renumber]
  apply bind_renumbered
  intro _ _
  rfl

theorem checkNew_renumber (taken : List Field) (field : Field) :
    checkNew (taken.map (Field.renumber f)) (field.renumber f) =
      renumbered f id (checkNew taken field) := by
  rw [checkNew, checkNew, Field.renumber, find?_map_renumber (Field.renumber f) (·.id) fun _ => rfl,
    find?_map_renumber (Field.renumber f) (·.name) fun _ => rfl]
  cases taken.find? (·.id == field.id) with
  | some earlier => rfl
  | none =>
    cases taken.find? (·.name == field.name) with
    | some earlier => rfl
    | none => rfl

theorem nextId_renumber (taken : List Field) :
    nextId (taken.map (Field.renumber f)) = nextId taken := by
  rw [nextId, nextId, List.getLast?_map]
  cases taken.getLast? with
  | none => rfl
  | some field => rfl

theorem startsField_renumber (tokens : List Token) :
    startsField (tokens.map (Token.renumber f)) = startsField tokens := by
  rcases tokens with _ | ⟨_, _ | ⟨_, _⟩⟩
  · rfl
  · rfl
  · rfl

theorem readEntry_renumber (bare : Bool) (last : Nat) (taken : List Field) (tokens : List Token) :
    readEntry bare (f last) (taken.map (Field.renumber f)) (tokens.map (Token.renumber f)) =
      renumbered f (withRest f (Field.renumber f)) (readEntry bare last taken tokens) := by
  rw [readEntry, readEntry, startsField_renumber]
  split
  · rw [readBareException, readBareException, expectWord_renumber]
    apply bind_renumbered
    rintro ⟨type, rest⟩ -
    simp only [withRest_mk, renumbered_ok, nextId_renumber]
    rfl
  · exact readField_renumber last tokens

theorem readFields_renumber (last : Nat) (taken : List Field) (tokens : List Token) :
    readFields (f last) (taken.map (Field.renumber f)) (tokens.map (Token.renumber f)) =
      renumbered f (List.map (Field.renumber f)) (readFields last taken tokens) := by
  rw [readFields_eq, readFields_eq last, skipSeparators_renumber]
  cases hskip : skipSeparators tokens with
  | nil => rfl
  | cons token rest =>
    simp only [List.map_cons]
    rw [← List.map_cons, readField_renumber]
    apply bind_renumbered
    rintro ⟨field, after⟩ hread
    simp only [withRest_mk]
    rw [checkNew_renumber]
    apply bind_renumbered
    intro _ _
    have hafter := readFields_renumber last (taken ++ [field]) after
    rwa [List.map_append] at hafter
termination_by tokens.length
decreasing_by
  exact ((readField_leaves hread).after_suffix (hskip ▸ skipSeparators_suffix tokens)).length_lt

theorem readEntries_renumber (bare : Bool) (last opened : Nat) (taken : List Field)
    (tokens : List Token) :
    readEntries bare (f last) (f opened) (taken.map (Field.renumber f))
        (tokens.map (Token.renumber f)) =
      renumbered f (withRest f (List.map (Field.renumber f)))
        (readEntries bare last opened taken tokens) := by
  rw [readEntries_eq, readEntries_eq bare last, skipSeparators_renumber]
  cases hskip : skipSeparators tokens with
  | nil => rfl
  | cons token rest =>
    simp only [List.map_cons]
    by_cases hclose : token.lexeme = .mark ')'
    · have hclose' : (token.renumber f).lexeme = .mark ')' := hclose
      rw [if_pos hclose, if_pos hclose']
      rfl
    · have hclose' : (token.renumber f).lexeme ≠ .mark ')' := hclose
      rw [if_neg hclose, if_neg hclose', ← List.map_cons, readEntry_renumber]
      apply bind_renumbered
      rintro ⟨field, after⟩ hread
      simp only [withRest_mk]
      rw [checkNew_renumber]
      apply bind_renumbered
      intro _ _
      have hafter := readEntries_renumber bare last opened (taken ++ [field]) after
      rwa [List.map_append] at hafter
termination_by tokens.length
decreasing_by
  exact ((readEntry_leaves hread).after_suffix (hskip ▸ skipSeparators_suffix tokens)).length_lt

theorem readParams_renumber (last : Nat) (function : Word) (tokens : List Token) :
    readParams (f last) (function.renumber f) (tokens.map (Token.renumber f)) =
      renumbered f (withRest f (List.map (Field.renumber f)))
        (readParams last function tokens) := by
  rw [readParams, readParams, eat_renumber]
  rcases eat (.mark '(') tokens with ⟨_ | _, rest⟩
  · dsimp only
    rw [lineOf_renumber]
    rfl
  · dsimp only
    rw [lineOf_renumber]
    exact readEntries_renumber false last (lineOf last rest) [] rest

theorem readThrows_renumber (last : Nat) (tokens : List Token) :
    readThrows (f last) (tokens.map (Token.renumber f)) =
      renumbered f (withRest f (List.map (Field.renumber f))) (readThrows last tokens) := by
  rw [readThrows, readThrows, eat_renumber]
  rcases eat (.word "throws") tokens with ⟨_ | _, rest⟩
  · rfl
  · dsimp only
    rw [eat_renumber]
    rcases eat (.mark '(') rest with ⟨_ | _, rest⟩
    · dsimp only
      rw [lineOf_renumber]
      rfl
    · dsimp only
      rw [lineOf_renumber]
      exact readEntries_renumber true last (lineOf last rest) [] rest

theorem checkOneway_renumber (function : Function) :
    checkOneway (function.renumber f) = renumbered f id (checkOneway function) := by
  rw [checkOneway, checkOneway, Function.renumber]
  dsimp only
  rw [List.isEmpty_map]
  split
  · rfl
  · rfl

theorem readFunction_renumber (last : Nat) (tokens : List Token) :
    readFunction (f last) (tokens.map (Token.renumber f)) =
      renumbered f (withRest f (Function.renumber f)) (readFunction last tokens) := by
  rw [readFunction, readFunction, eat_renumber, lineOf_renumber]
  dsimp only
  rw [expectWord_renumber]
  apply bind_renumbered
  rintro ⟨type, rest⟩ -
  simp only [withRest_mk]
  rw [expectWord_renumber]
  apply bind_renumbered
  rintro ⟨name, rest⟩ -
  simp only [withRest_mk]
  rw [checkIdentifier_renumber]
  apply bind_renumbered
  intro _ _
  rw [readParams_renumber]
  apply bind_renumbered
  rintro ⟨params, rest⟩ -
  simp only [withRest_mk]
  rw [readThrows_renumber]
  apply bind_renumbered
  rintro ⟨throws, rest⟩ -
  simp only [withRest_mk]
  change checkOneway (Function.renumber f ⟨name.text, returnTypeOf type.text,
    (eat (.word "oneway") tokens).1, params, throws, lineOf last tokens⟩) >>= _ = _
  rw [checkOneway_renumber]
  apply bind_renumbered
  intro _ _
  rfl

theorem checkNewFunction_renumber (taken : List Function) (function : Function) :
    checkNewFunction (taken.map (Function.renumber f)) (function.renumber f) =
      renumbered f id (checkNewFunction taken function) := by
  rw [checkNewFunction, checkNewFunction, Function.renumber,
    find?_map_renumber (Function.renumber f) (·.name) fun _ => rfl]
  cases taken.find? (·.name == function.name) with
  | some earlier => rfl
  | none => rfl

theorem readFunctions_renumber (last : Nat) (taken : List Function) (tokens : List Token) :
    readFunctions (f last) (taken.map (Function.renumber f)) (tokens.map (Token.renumber f)) =
      renumbered f (List.map (Function.renumber f)) (readFunctions last taken tokens) := by
  rw [readFunctions_eq, readFunctions_eq last, skipSeparators_renumber]
  cases hskip : skipSeparators tokens with
  | nil => rfl
  | cons token rest =>
    simp only [List.map_cons]
    rw [← List.map_cons, readFunction_renumber]
    apply bind_renumbered
    rintro ⟨function, after⟩ hread
    simp only [withRest_mk]
    rw [checkNewFunction_renumber]
    apply bind_renumbered
    intro _ _
    have hafter := readFunctions_renumber last (taken ++ [function]) after
    rwa [List.map_append] at hafter
termination_by tokens.length
decreasing_by
  exact ((readFunction_leaves hread).after_suffix (hskip ▸ skipSeparators_suffix tokens)).length_lt

theorem nextNumber?_renumber (taken : List EnumValue) :
    nextNumber? (taken.map (EnumValue.renumber f)) = nextNumber? taken := by
  rw [nextNumber?, nextNumber?, List.getLast?_map]
  cases taken.getLast? with
  | none => rfl
  | some value => rfl

theorem readNumber_renumber (taken : List EnumValue) (name : Word) (tokens : List Token) :
    readNumber (taken.map (EnumValue.renumber f)) (name.renumber f)
        (tokens.map (Token.renumber f)) =
      renumbered f (withRest f id) (readNumber taken name tokens) := by
  rw [readNumber, readNumber, eat_renumber]
  rcases eat (.mark '=') tokens with ⟨_ | _, rest⟩
  · dsimp only
    rw [nextNumber?_renumber]
    cases nextNumber? taken with
    | none => rfl
    | some value => rfl
  · cases rest with
    | nil => rfl
    | cons token rest =>
      simp only [List.map_cons]
      have htext : (token.renumber f).text = token.text := rfl
      rw [htext]
      cases Text.literal32? token.text with
      | none => rfl
      | some value => rfl

theorem checkNewValue_renumber (taken : List EnumValue) (value : EnumValue) :
    checkNewValue (taken.map (EnumValue.renumber f)) (value.renumber f) =
      renumbered f id (checkNewValue taken value) := by
  rw [checkNewValue, checkNewValue, EnumValue.renumber,
    find?_map_renumber (EnumValue.renumber f) (·.name) fun _ => rfl,
    find?_map_renumber (EnumValue.renumber f) (·.value) fun _ => rfl]
  cases taken.find? (·.name == value.name) with
  | some earlier => rfl
  | none =>
    cases taken.find? (·.value == value.value) with
    | some earlier => rfl
    | none => rfl

theorem readEnumValue_renumber (taken : List EnumValue) (name : Token) (tokens : List Token) :
    readEnumValue (taken.map (EnumValue.renumber f)) (name.renumber f)
        (tokens.map (Token.renumber f)) =
      renumbered f (withRest f (EnumValue.renumber f)) (readEnumValue taken name tokens) := by
  rcases name with ⟨text | text | c, line⟩
  · change checkIdentifier (Word.renumber f ⟨text, line⟩) >>= _ = _
    rw [checkIdentifier_renumber]
    apply bind_renumbered
    intro _ _
    change readNumber _ (Word.renumber f ⟨text, line⟩) _ >>= _ = _
    rw [readNumber_renumber]
    apply bind_renumbered
    rintro ⟨⟨number, explicit⟩, rest⟩ -
    change checkNewValue _ (EnumValue.renumber f ⟨text, number, explicit, line⟩) >>= _ = _
    rw [checkNewValue_renumber]
    apply bind_renumbered
    intro _ _
    rfl
  · rfl
  · rfl

theorem readEnumValues_renumber (taken : List EnumValue) (tokens : List Token) :
    readEnumValues (taken.map (EnumValue.renumber f)) (tokens.map (Token.renumber f)) =
      renumbered f (List.map (EnumValue.renumber f)) (readEnumValues taken tokens) := by
  cases tokens with
  | nil => rw [List.map_nil, readEnumValues, readEnumValues, renumbered_ok]
  | cons token rest =>
    rw [List.map_cons, readEnumValues_cons, readEnumValues_cons]
    have hseparator : (token.renumber f).isSeparator = token.isSeparator := rfl
    rw [hseparator]
    split
    · exact readEnumValues_renumber taken rest
    · rw [readEnumValue_renumber]
      apply bind_renumbered
      rintro ⟨value, after⟩ hread
      have hlength := (readEnumValue_suffix hread).length_le
      have hafter := readEnumValues_renumber (taken ++ [value]) after
      rwa [List.map_append] at hafter
termination_by tokens.length
decreasing_by
  · exact Nat.lt_succ_of_le hlength
  · exact Nat.lt_succ_self rest.length

theorem readSenumValues_renumber (taken : List Quoted) (tokens : List Token) :
    readSenumValues (taken.map (Word.renumber f)) (tokens.map (Token.renumber f)) =
      renumbered f (List.map (Word.renumber f)) (readSenumValues taken tokens) := by
  induction tokens generalizing taken with
  | nil => rfl
  | cons token rest ih =>
    have hseparator : (token.renumber f).isSeparator = token.isSeparator := rfl
    rw [List.map_cons, readSenumValues, readSenumValues, hseparator]
    split
    · exact ih taken
    · rcases token with ⟨text | text | c, line⟩
      · rfl
      · dsimp only [Token.renumber]
        rw [find?_map_renumber (Word.renumber f) (·.text) fun _ => rfl]
        cases taken.find? (·.text == String.ofList (unquote text.toList)) with
        | some earlier => rfl
        | none =>
          have hrest := ih (taken ++ [⟨String.ofList (unquote text.toList), line⟩])
          rwa [List.map_append] at hrest
      · rfl

/-- A body in renumbered tokens is the renumbered body, or breaks the same rule. -/
theorem readBody_renumber (kind : Kind) (base? : Option String) (block : Block) :
    readBody kind base? (block.renumber f) =
      renumbered f (Body.renumber f) (readBody kind base? block) := by
  have hfields : ∀ body : List Field → Body,
      (∀ fields, body (fields.map (Field.renumber f)) = (body fields).renumber f) →
      readFields (f block.last) [] (block.tokens.map (Token.renumber f)) >>=
          (fun fields => .ok (body fields)) =
        renumbered f (Body.renumber f)
          (readFields block.last [] block.tokens >>= fun fields => .ok (body fields)) := by
    intro body hbody
    have hread := readFields_renumber (f := f) block.last [] block.tokens
    rw [List.map_nil] at hread
    rw [hread]
    apply bind_renumbered
    intro fields _
    rw [hbody]
    rfl
  cases kind with
  | enum =>
    have hread := readEnumValues_renumber (f := f) [] block.tokens
    rw [readBody, readBody, Block.renumber]
    dsimp only
    rw [List.map_nil] at hread
    rw [hread]
    apply bind_renumbered
    intro _ _
    rfl
  | senum =>
    have hread := readSenumValues_renumber (f := f) [] block.tokens
    rw [readBody, readBody, Block.renumber]
    dsimp only
    rw [List.map_nil] at hread
    rw [hread]
    apply bind_renumbered
    intro values _
    rw [List.map_map]
    rfl
  | service =>
    have hread := readFunctions_renumber (f := f) block.last [] block.tokens
    rw [readBody, readBody, Block.renumber]
    dsimp only
    rw [List.map_nil] at hread
    rw [hread]
    apply bind_renumbered
    intro _ _
    rfl
  | exception => exact hfields .exception fun _ => rfl
  | struct => exact hfields .struct fun _ => rfl
  | const => exact hfields .struct fun _ => rfl
  | typedef => exact hfields .struct fun _ => rfl

theorem tokens_renumber (line : Line) :
    (line.renumber f).tokens = line.tokens.map (Token.renumber f) := by
  rw [Line.tokens, Line.tokens, List.map_map]
  rfl

theorem cons_renumber (token : Token) (part : BlockPart) :
    (part.renumber f).cons (token.renumber f) = (part.cons token).renumber f := by
  rcases part with _ | _
  · rfl
  · rfl

theorem blockPart_renumber (depth : Nat) (tokens : List Token) :
    blockPart depth (tokens.map (Token.renumber f)) = (blockPart depth tokens).renumber f := by
  induction tokens generalizing depth with
  | nil => rfl
  | cons token rest ih =>
    rw [List.map_cons]
    by_cases hopen : token.lexeme = .mark '{'
    · have hopen' : (token.renumber f).lexeme = .mark '{' := hopen
      rw [blockPart_of_open hopen, blockPart_of_open hopen', ih, cons_renumber]
    · have hopen' : (token.renumber f).lexeme ≠ .mark '{' := hopen
      by_cases hclose : token.lexeme = .mark '}'
      · have hclose' : (token.renumber f).lexeme = .mark '}' := hclose
        cases depth with
        | zero =>
          rw [blockPart_of_close_zero hclose, blockPart_of_close_zero hclose']
          rfl
        | succ depth =>
          rw [blockPart_of_close_succ hclose, blockPart_of_close_succ hclose', ih, cons_renumber]
      · have hclose' : (token.renumber f).lexeme ≠ .mark '}' := hclose
        rw [blockPart_of_other hopen hclose, blockPart_of_other hopen' hclose', ih, cons_renumber]

theorem closeBlock_renumber (kind : Kind) (start depth : Nat) (tokens : List Token)
    (lines : List Line) :
    closeBlock kind (f start) depth (tokens.map (Token.renumber f))
        (lines.map (Line.renumber f)) =
      renumbered f (Block.renumber f) (closeBlock kind start depth tokens lines) := by
  induction lines generalizing depth tokens with
  | nil =>
    rw [List.map_nil, closeBlock, closeBlock, blockPart_renumber]
    rcases blockPart depth tokens with ⟨depth, body⟩ | ⟨body, last, _ | ⟨token, after⟩⟩
    · rfl
    · rfl
    · rfl
  | cons line lines ih =>
    rw [List.map_cons, closeBlock, closeBlock, blockPart_renumber]
    rcases blockPart depth tokens with ⟨depth, body⟩ | ⟨body, last, _ | ⟨token, after⟩⟩
    · simp only [BlockPart.renumber]
      rw [tokens_renumber, ih]
      apply bind_renumbered
      intro block _
      simp only [renumbered_ok, Block.renumber, List.map_append]
    · rfl
    · rfl

theorem openBlock_renumber (kind : Kind) (start : Nat) (tokens : List Token) (lines : List Line) :
    openBlock kind (f start) (tokens.map (Token.renumber f)) (lines.map (Line.renumber f)) =
      renumbered f (Block.renumber f) (openBlock kind start tokens lines) := by
  cases tokens with
  | nil => rfl
  | cons token rest =>
    rw [List.map_cons, openBlock, openBlock]
    by_cases hopen : token.lexeme = .mark '{'
    · have hopen' : (token.renumber f).lexeme = .mark '{' := hopen
      rw [if_pos hopen, if_pos hopen']
      exact closeBlock_renumber kind start 0 rest lines
    · have hopen' : (token.renumber f).lexeme ≠ .mark '{' := hopen
      rw [if_neg hopen, if_neg hopen']
      rfl

theorem readBlock_renumber (kind : Kind) (start : Nat) (tokens : List Token) (lines : List Line) :
    readBlock kind (f start) (tokens.map (Token.renumber f)) (lines.map (Line.renumber f)) =
      renumbered f (Block.renumber f) (readBlock kind start tokens lines) := by
  rcases tokens with _ | ⟨token, tokens⟩
  · rcases lines with _ | ⟨line, lines⟩
    · rfl
    · simp only [List.map_cons, List.map_nil, readBlock]
      rw [tokens_renumber, openBlock_renumber]
      apply bind_renumbered
      intro _ _
      rfl
  · exact openBlock_renumber kind start (token :: tokens) lines

theorem readConst_of_other_mark {c : Char} (hmark : c ≠ '=') (taken : List Definition)
    (start : Nat) (type name : String) (first second third : Nat) (rest : List Token) :
    readConst taken start
        (⟨.word type, first⟩ :: ⟨.word name, second⟩ :: ⟨.mark c, third⟩ :: rest) =
      misshapen (.definition .const) start (.opening .const) := by
  simp only [readConst]
  split
  · next heq =>
    cases heq
    exact absurd rfl hmark
  · rfl

theorem readConst_renumber (taken : List Definition) (start : Nat) (tokens : List Token) :
    readConst (taken.map (Definition.renumber f)) (f start) (tokens.map (Token.renumber f)) =
      renumbered f (Definition.renumber f) (readConst taken start tokens) := by
  rcases tokens with _ | ⟨⟨type | _ | _, _⟩, _ | ⟨⟨name | _ | _, line⟩, _ | ⟨⟨_ | _ | c, _⟩, rest⟩⟩⟩
  all_goals try rfl
  by_cases hmark : c = '='
  · subst hmark
    simp only [readConst, List.map_cons, Token.renumber]
    rw [readValue_renumber]
    rcases readValue (.definition .const) start rest with violation | ⟨value, _ | ⟨token, after⟩⟩
    · rfl
    · change declare _ (Word.renumber f ⟨name, line⟩) >>= _ = _
      rw [declare_renumber]
      apply bind_renumbered
      intro _ _
      rfl
    · rfl
  · simp only [List.map_cons, Token.renumber, readConst_of_other_mark hmark]
    rfl

theorem readTypedef_renumber (taken : List Definition) (start : Nat) (tokens : List Token) :
    readTypedef (taken.map (Definition.renumber f)) (f start) (tokens.map (Token.renumber f)) =
      renumbered f (Definition.renumber f) (readTypedef taken start tokens) := by
  rcases tokens with _ | ⟨⟨type | _ | _, _⟩, _ | ⟨⟨name | _ | _, line⟩, _ | ⟨_, _⟩⟩⟩
  all_goals try rfl
  change declare _ (Word.renumber f ⟨name, line⟩) >>= _ = _
  rw [declare_renumber]
  apply bind_renumbered
  intro _ _
  rfl

theorem readBlockName_renumber (kind : Kind) (taken : List Definition) (start : Nat)
    (tokens : List Token) :
    readBlockName kind (taken.map (Definition.renumber f)) (f start)
        (tokens.map (Token.renumber f)) =
      renumbered f (withRest f (Declared.renumber f)) (readBlockName kind taken start tokens) := by
  rcases tokens with _ | ⟨⟨name | _ | _, line⟩, rest⟩
  · rfl
  · change declare _ (Word.renumber f ⟨name, line⟩) >>= _ = _
    rw [declare_renumber]
    apply bind_renumbered
    intro _ _
    rfl
  · rfl
  · rfl

theorem readBaseOf_renumber (kind : Kind) (start : Nat) (tokens : List Token) :
    readBaseOf kind (f start) (tokens.map (Token.renumber f)) =
      renumbered f (withRest f id) (readBaseOf kind start tokens) := by
  rw [readBaseOf, readBaseOf]
  split
  · rw [readBase, readBase, eat_renumber]
    rcases eat (.word "extends") tokens with ⟨_ | _, rest⟩
    · rfl
    · rcases rest with _ | ⟨⟨base | _ | _, line⟩, rest⟩
      · rfl
      · change checkIdentifier (Word.renumber f ⟨base, line⟩) >>= _ = _
        rw [checkIdentifier_renumber]
        apply bind_renumbered
        intro _ _
        rfl
      · rfl
      · rfl
  · rfl

theorem readBlockDefinition_renumber (kind : Kind) (taken : List Definition) (start : Nat)
    (tokens : List Token) (lines : List Line) :
    readBlockDefinition kind (taken.map (Definition.renumber f)) (f start)
        (tokens.map (Token.renumber f)) (lines.map (Line.renumber f)) =
      renumbered f (Extent.renumber f) (readBlockDefinition kind taken start tokens lines) := by
  rw [readBlockDefinition_eq, readBlockDefinition_eq, readBlockName_renumber]
  apply bind_renumbered
  rintro ⟨declared, rest⟩ -
  simp only [withRest_mk]
  rw [readBaseOf_renumber]
  apply bind_renumbered
  rintro ⟨base?, rest⟩ -
  simp only [withRest_mk]
  rw [readBlock_renumber]
  apply bind_renumbered
  intro block _
  rw [id_eq, readBody_renumber]
  apply bind_renumbered
  intro _ _
  rfl

theorem readDefinition_renumber (taken : List Definition) (line : Line) (lines : List Line) :
    readDefinition (taken.map (Definition.renumber f)) (line.renumber f)
        (lines.map (Line.renumber f)) =
      renumbered f (Extent.renumber f) (readDefinition taken line lines) := by
  rw [readDefinition, readDefinition, tokens_renumber]
  rcases line.tokens with _ | ⟨⟨word | _ | _, number⟩, rest⟩
  · rfl
  · simp only [List.map_cons, Token.renumber]
    rcases Kind.ofWord? word with _ | ⟨_ | _ | _ | _ | _ | _ | _⟩
    · rfl
    · dsimp only [Line.renumber]
      rw [readConst_renumber]
      apply bind_renumbered
      intro _ _
      rfl
    · dsimp only [Line.renumber]
      rw [readTypedef_renumber]
      apply bind_renumbered
      intro _ _
      rfl
    all_goals exact readBlockDefinition_renumber _ taken line.number rest lines
  · rfl
  · rfl

/-- Renumbered lines are read to the renumbered definitions, or break the same rule. -/
theorem readDefinitions_renumber (taken : List Definition) (lines : List Line) :
    readDefinitions (taken.map (Definition.renumber f)) (lines.map (Line.renumber f)) =
      renumbered f (List.map (Definition.renumber f)) (readDefinitions taken lines) := by
  fun_induction readDefinitions taken lines with
  | case1 taken => rw [List.map_nil, readDefinitions, renumbered_ok]
  | case2 taken line rest ih =>
    rw [List.map_cons, readDefinitions, readDefinition_renumber]
    apply bind_renumbered
    intro extent _
    have hrest := ih extent
    rw [List.map_append, List.map_drop] at hrest
    exact hrest

end Grammar

end ThriftIdl

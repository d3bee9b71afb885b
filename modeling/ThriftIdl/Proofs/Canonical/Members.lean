import ThriftIdl.Proofs.Canonical.Lines
import ThriftIdl.Proofs.Grammar.Renumbering
import ThriftIdl.Proofs.Json.Scalar
import ThriftIdl.Proofs.Text.Literal

/-!
Members are read back from their canonical lines. Each reader gives the member that its pieces were
made from and leaves the tokens after them; what may follow is said where a reader looks one token
ahead. All tokens stand on line 0, and so do the members that are read.
-/

namespace ThriftIdl

namespace Text

theorem signed_natAbs (value : Int) : signed (decide (value < 0)) value.natAbs = value := by
  rw [signed]
  by_cases h : value < 0
  · rw [if_pos (decide_eq_true h)]
    omega
  · rw [if_neg (by simp [h])]
    omega

theorem magnitude_toDigits (number : Nat) : Magnitude (Nat.toDigits 10 number) number :=
  .decimal ((natural?_eq_some_iff (by decide)).1 (Json.natural?_toDigits number))

theorem sign_ofInt (value : Int) :
    sign (ofInt value).toList = (decide (value < 0), Nat.toDigits 10 value.natAbs) := by
  rw [ofInt, String.toList_ofList]
  split
  · next h => simp [sign, h]
  · next h => rw [sign_of_magnitude (magnitude_toDigits _), decide_eq_false h]

theorem decimal16?_ofInt (value : Int16) : decimal16? (ofInt value.toInt) = some value := by
  simp only [decimal16?, sign_ofInt, Json.natural?_toDigits, Option.bind_some, signed_natAbs]
  exact int16?_eq_some_iff.2 rfl

theorem literal32?_ofInt (value : Int32) : literal32? (ofInt value.toInt) = some value := by
  rw [literal32?_eq_some_iff, denotes_iff, sign_ofInt]
  exact ⟨_, magnitude_toDigits _, signed_natAbs value.toInt⟩

end Text

namespace Canonical

open Grammar

theorem tokensAt_append (number : Nat) (left right : List Piece) :
    tokensAt number (left ++ right) = tokensAt number left ++ tokensAt number right := by
  simp [tokensAt, lexemesOf]

@[simp] theorem tokensAt_nil (number : Nat) : tokensAt number [] = [] := rfl

@[simp] theorem tokensAt_gap (number : Nat) (line : List Piece) :
    tokensAt number (.gap :: line) = tokensAt number line := rfl

@[simp] theorem tokensAt_word (number : Nat) (word : String) (line : List Piece) :
    tokensAt number (.word word :: line) = ⟨.word word, number⟩ :: tokensAt number line := rfl

@[simp] theorem tokensAt_mark (number : Nat) (c : Char) (line : List Piece) :
    tokensAt number (.mark c :: line) = ⟨.mark c, number⟩ :: tokensAt number line := rfl

/-- All lines as one. -/
def onto0 : Nat → Nat := fun _ => 0

theorem readValue_valuePiece {value : String} (construct : Construct) (last : Nat)
    (rest : List Token) :
    readValue construct last (tokensAt 0 [valuePiece value] ++ rest) = .ok (value, rest) := by
  rw [valuePiece]
  split
  · rfl
  · rfl

theorem readDefault_defaultPieces {value? : Option String} (last : Nat) {rest : List Token}
    (hrest : Lacks (.mark '=') rest) :
    readDefault last (tokensAt 0 (defaultPieces value?) ++ rest) = .ok (value?, rest) := by
  cases value? with
  | none =>
    have heat := eat_of_lacks hrest
    simp only [defaultPieces, tokensAt_nil, List.nil_append, readDefault, heat]
  | some value =>
    have hvalue := @readValue_valuePiece value .field last rest
    simp only [defaultPieces, tokensAt_gap, tokensAt_mark, List.cons_append, readDefault,
      eat_of_eq]
    rw [hvalue]
    rfl

theorem requirednessOf_of_isType {type : String} (h : IsType type) :
    requirednessOf type = .unstated := by
  rw [requirednessOf]
  · rintro rfl
    exact h.2 (by decide)
  · rintro rfl
    exact h.2 (by decide)

theorem readFieldType_pieces {requiredness : Requiredness} {type : String} (h : IsType type)
    (last : Nat) (rest : List Token) :
    readFieldType last
        (tokensAt 0 (requirednessPieces requiredness) ++ ⟨.word type, 0⟩ :: rest) =
      .ok ((requiredness, ⟨type, 0⟩), rest) := by
  cases requiredness with
  | required => rfl
  | optional => rfl
  | unstated =>
    have htype := requirednessOf_of_isType h
    simp only [requirednessPieces, tokensAt_nil, List.nil_append, readFieldType, expectWord, bind,
      Except.bind, htype]

/-- A field is read back, unless what follows reads as its default value. -/
theorem readField_fieldPieces {field : Field} (h : PrintsField field) (last : Nat)
    {rest : List Token} (hrest : Lacks (.mark '=') rest) :
    readField last (tokensAt 0 (fieldPieces field) ++ rest) =
      .ok (field.renumber onto0, rest) := by
  have hid : ∀ after, readFieldId last
      (⟨.word (Text.ofInt field.id.toInt), 0⟩ :: ⟨.mark ':', 0⟩ :: after) =
        .ok ((field.id, 0), after) := by
    intro after
    simp only [readFieldId, expectWord, bind, Except.bind, Text.decimal16?_ofInt, eat_of_eq]
  have htype := @readFieldType_pieces field.requiredness field.type h.type last
    (⟨.word field.name, 0⟩ :: (tokensAt 0 (defaultPieces field.default?) ++ rest))
  have hname : checkIdentifier ⟨field.name, 0⟩ = .ok () := checkIdentifier_eq_ok_iff.2 h.name
  have hdefault := @readDefault_defaultPieces field.default? last rest hrest
  simp only [fieldPieces, tokensAt_append, tokensAt_word, tokensAt_mark, tokensAt_gap,
    List.cons_append, List.nil_append, List.append_assoc]
  rw [readField, hid]
  simp only [bind, Except.bind]
  rw [htype]
  simp only [expectWord]
  rw [hname]
  dsimp only
  rw [hdefault]
  rfl

/-- The first of the pieces for a field is its id, a word, and the second is a colon. -/
theorem exists_tokensAt_fieldPieces (field : Field) :
    ∃ rest, tokensAt 0 (fieldPieces field) =
      ⟨.word (Text.ofInt field.id.toInt), 0⟩ :: ⟨.mark ':', 0⟩ :: rest :=
  ⟨_, rfl⟩

/-- Among fields that stand apart each passes the check against those before it. -/
theorem checkNew_of_apart {taken rest : List Field} {field : Field}
    (h : Field.Apart (taken ++ field :: rest)) :
    checkNew (taken.map (Field.renumber onto0)) (field.renumber onto0) = .ok () := by
  have hfirst : Field.Apart (taken ++ [field]) := by
    have hinitial : taken ++ [field] <+: taken ++ field :: rest := ⟨rest, by simp⟩
    exact ⟨h.ids.sublist (hinitial.sublist.map _), h.names.sublist (hinitial.sublist.map _)⟩
  rw [checkNew_renumber, (apart_append_singleton_iff.1 hfirst).2]
  rfl

theorem skipSeparators_word (word : String) (rest : List Token) :
    skipSeparators (⟨.word word, 0⟩ :: rest) = ⟨.word word, 0⟩ :: rest := rfl

theorem map_append_singleton {α β : Type} (f : α → β) (taken : List α) (item : α) :
    taken.map f ++ [f item] = (taken ++ [item]).map f := by
  rw [List.map_append, List.map_singleton]

/-- An entry of a list is read back and taken. -/
theorem readEntries_fieldPieces {bare : Bool} {last opened : Nat} {taken fields : List Field}
    {field : Field} (h : PrintsField field) (hapart : Field.Apart (taken ++ field :: fields))
    {rest : List Token} (hrest : Lacks (.mark '=') rest) :
    readEntries bare last opened (taken.map (Field.renumber onto0))
        (tokensAt 0 (fieldPieces field) ++ rest) =
      readEntries bare last opened ((taken ++ [field]).map (Field.renumber onto0)) rest := by
  obtain ⟨more, hfield⟩ := exists_tokensAt_fieldPieces field
  have hread := readField_fieldPieces h last hrest
  rw [hfield] at hread ⊢
  have hentry : ∀ before tokens, readEntry bare last before
      (⟨.word (Text.ofInt field.id.toInt), 0⟩ :: ⟨.mark ':', 0⟩ :: tokens) =
        readField last (⟨.word (Text.ofInt field.id.toInt), 0⟩ :: ⟨.mark ':', 0⟩ :: tokens) := by
    intro before tokens
    rw [readEntry, if_neg]
    simp [startsField]
  rw [readEntries_eq]
  simp only [List.cons_append, skipSeparators_word, hentry, reduceCtorEq, if_false] at hread ⊢
  rw [hread]
  simp only [bind, Except.bind]
  rw [checkNew_of_apart hapart, map_append_singleton]

theorem lacks_furtherPieces {lexeme : Lexeme} (hcomma : lexeme ≠ .mark ',')
    (hclose : lexeme ≠ .mark ')') (fields : List Field) (rest : List Token) :
    Lacks lexeme (tokensAt 0 (furtherPieces fields) ++ ⟨.mark ')', 0⟩ :: rest) := by
  cases fields with
  | nil =>
    intro token htoken
    cases htoken
    exact hclose.symm
  | cons field fields =>
    intro token htoken
    cases htoken
    exact hcomma.symm

/-- Fields after commas are read back up to the parenthesis that closes their list. -/
theorem readEntries_furtherPieces {bare : Bool} {last opened : Nat} {taken fields : List Field}
    (h : ∀ field ∈ fields, PrintsField field) (hapart : Field.Apart (taken ++ fields))
    (rest : List Token) :
    readEntries bare last opened (taken.map (Field.renumber onto0))
        (tokensAt 0 (furtherPieces fields) ++ ⟨.mark ')', 0⟩ :: rest) =
      .ok ((taken ++ fields).map (Field.renumber onto0), rest) := by
  induction fields generalizing taken with
  | nil =>
    rw [readEntries_eq, List.append_nil]
    rfl
  | cons field fields ih =>
    rw [List.forall_mem_cons] at h
    have hcomma : ∀ tokens, readEntries bare last opened (taken.map (Field.renumber onto0))
        (⟨.mark ',', 0⟩ :: tokens) =
          readEntries bare last opened (taken.map (Field.renumber onto0)) tokens := by
      intro tokens
      rw [readEntries_eq, readEntries_eq bare last opened _ tokens]
      rfl
    have hentry := @readEntries_fieldPieces bare last opened taken fields field h.1 hapart _
      (lacks_furtherPieces (by decide) (by decide) fields rest)
    rw [List.append_cons taken field fields] at hapart ⊢
    rw [← ih h.2 hapart, ← hentry]
    simp only [furtherPieces, List.flatMap_cons, tokensAt_append, tokensAt_mark, tokensAt_gap,
      List.cons_append, List.nil_append, List.append_assoc]
    rw [hcomma]

/-- Fields in parentheses are read back. -/
theorem readEntries_separatedPieces {bare : Bool} {last opened : Nat} {fields : List Field}
    (h : ∀ field ∈ fields, PrintsField field) (hapart : Field.Apart fields) (rest : List Token) :
    readEntries bare last opened []
        (tokensAt 0 (separatedPieces fields) ++ ⟨.mark ')', 0⟩ :: rest) =
      .ok (fields.map (Field.renumber onto0), rest) := by
  cases fields with
  | nil =>
    rw [readEntries_eq]
    rfl
  | cons field fields =>
    rw [List.forall_mem_cons] at h
    have hentry := @readEntries_fieldPieces bare last opened [] fields field h.1 hapart _
      (lacks_furtherPieces (by decide) (by decide) fields rest)
    rw [List.map_nil] at hentry
    rw [separatedPieces, tokensAt_append, List.append_assoc, hentry]
    exact readEntries_furtherPieces h.2 hapart rest

theorem tokensAt_listPieces (fields : List Field) (rest : List Token) :
    tokensAt 0 (listPieces fields) ++ rest =
      ⟨.mark '(', 0⟩ :: (tokensAt 0 (separatedPieces fields) ++ ⟨.mark ')', 0⟩ :: rest) := by
  simp [listPieces, tokensAt_append]

theorem readParams_listPieces {params : List Field} (h : ∀ field ∈ params, PrintsField field)
    (hapart : Field.Apart params) (last : Nat) (function : Word) (rest : List Token) :
    readParams last function (tokensAt 0 (listPieces params) ++ rest) =
      .ok (params.map (Field.renumber onto0), rest) := by
  rw [tokensAt_listPieces, readParams, eat_of_eq]
  exact readEntries_separatedPieces h hapart rest

/-- The exceptions of a function are read back, unless there are none and what follows reads as
exceptions. -/
theorem readThrows_throwsPieces {throws : List Field} (h : ∀ field ∈ throws, PrintsField field)
    (hapart : Field.Apart throws) (last : Nat) {rest : List Token}
    (hrest : Lacks (.word "throws") rest) :
    readThrows last (tokensAt 0 (throwsPieces throws) ++ rest) =
      .ok (throws.map (Field.renumber onto0), rest) := by
  cases throws with
  | nil =>
    have heat := eat_of_lacks hrest
    simp only [throwsPieces, tokensAt_nil, List.nil_append, readThrows, heat, List.map_nil]
  | cons field fields =>
    have hthrows : tokensAt 0 (throwsPieces (field :: fields)) =
        ⟨.word "throws", 0⟩ :: tokensAt 0 (listPieces (field :: fields)) := rfl
    rw [hthrows, List.cons_append, tokensAt_listPieces, readThrows, eat_of_eq]
    dsimp only
    rw [eat_of_eq]
    exact readEntries_separatedPieces h hapart rest

/-- The word for what a function returns. -/
def returnWord (function : Function) : String := function.returnType?.getD voidWord

theorem returnTypeOf_returnWord {function : Function} (h : PrintsFunction function) :
    returnTypeOf (returnWord function) = function.returnType? := by
  cases htype : function.returnType? with
  | none =>
    rw [returnWord, htype]
    rfl
  | some type =>
    rw [returnWord, htype, returnTypeOf, if_neg]
    · rfl
    · rintro rfl
      exact (h.returnType "void" htype).2 (by decide)

theorem returnWord_ne {function : Function} (h : PrintsFunction function) {word : String}
    (hreserved : word ∈ reserved) (hvoid : word ≠ voidWord) : returnWord function ≠ word := by
  rintro rfl
  cases htype : function.returnType? with
  | none => exact hvoid (by rw [returnWord, htype]; rfl)
  | some type =>
    apply (h.returnType type htype).2
    rw [returnWord, htype] at hreserved
    exact hreserved

/-- The tokens of a function after the word that makes it oneway. -/
def functionTokens (function : Function) (rest : List Token) : List Token :=
  ⟨.word (returnWord function), 0⟩ :: ⟨.word function.name, 0⟩ ::
    (tokensAt 0 (listPieces function.params) ++ (tokensAt 0 (throwsPieces function.throws) ++ rest))

theorem tokensAt_functionPieces (function : Function) (rest : List Token) :
    tokensAt 0 (functionPieces function) ++ rest =
      if function.oneway then ⟨.word "oneway", 0⟩ :: functionTokens function rest
      else functionTokens function rest := by
  rw [functionPieces]
  split
  · simp [tokensAt_append, functionTokens, returnWord]
  · simp [tokensAt_append, functionTokens, returnWord]

theorem lineOf_functionPieces (function : Function) (last : Nat) (rest : List Token) :
    lineOf last (tokensAt 0 (functionPieces function) ++ rest) = 0 := by
  rw [tokensAt_functionPieces]
  split
  · rfl
  · rfl

/-- A function that is oneway says so, and one that is not starts with another word. -/
theorem eat_oneway_functionPieces {function : Function} (h : PrintsFunction function)
    (rest : List Token) :
    eat (.word "oneway") (tokensAt 0 (functionPieces function) ++ rest) =
      (function.oneway, functionTokens function rest) := by
  rw [tokensAt_functionPieces]
  cases function.oneway with
  | true => exact eat_of_eq (.word "oneway") 0 _
  | false =>
    apply eat_of_lacks
    intro token htoken
    cases htoken
    have hword : returnWord function ≠ "oneway" := returnWord_ne h (by decide) (by decide)
    simpa using hword

/-- A well-formed function is read back, unless what follows reads as its exceptions. -/
theorem readFunction_functionPieces {function : Function} (h : PrintsFunction function)
    (hformed : function.WellFormed) (last : Nat) {rest : List Token}
    (hrest : Lacks (.word "throws") rest) :
    readFunction last (tokensAt 0 (functionPieces function) ++ rest) =
      .ok (function.renumber onto0, rest) := by
  have hname : checkIdentifier ⟨function.name, 0⟩ = .ok () := checkIdentifier_eq_ok_iff.2 h.name
  have hparams := readParams_listPieces h.params hformed.params last ⟨function.name, 0⟩
    (tokensAt 0 (throwsPieces function.throws) ++ rest)
  have hthrows := readThrows_throwsPieces h.throws hformed.throws last hrest
  have honeway : checkOneway (function.renumber onto0) = .ok () := by
    rw [checkOneway_renumber, checkOneway_eq_ok_iff.2 hformed.oneway]
    rfl
  rw [readFunction]
  dsimp only
  rw [eat_oneway_functionPieces h, lineOf_functionPieces]
  simp only [functionTokens, expectWord, bind, Except.bind]
  rw [hname]
  dsimp only
  rw [hparams]
  dsimp only
  rw [hthrows]
  dsimp only
  rw [returnTypeOf_returnWord h]
  have hfunction : (⟨function.name, function.returnType?, function.oneway,
      function.params.map (Field.renumber onto0), function.throws.map (Field.renumber onto0), 0⟩ :
        Function) = function.renumber onto0 := rfl
  rw [hfunction, honeway]

/-- The tokens of members, one after the other. -/
def memberTokens {α : Type} (pieces : α → List Piece) (members : List α) : List Token :=
  members.flatMap fun member => tokensAt 0 (pieces member)

@[simp] theorem memberTokens_nil {α : Type} (pieces : α → List Piece) :
    memberTokens pieces [] = [] := rfl

@[simp] theorem memberTokens_cons {α : Type} (pieces : α → List Piece) (member : α)
    (members : List α) :
    memberTokens pieces (member :: members) =
      tokensAt 0 (pieces member) ++ memberTokens pieces members := rfl

theorem lacks_memberTokens_fieldPieces (c : Char) (fields : List Field) :
    Lacks (.mark c) (memberTokens fieldPieces fields) := by
  cases fields with
  | nil => exact lacks_nil _
  | cons field fields =>
    intro token htoken
    cases htoken
    simp

/-- The fields of a body are read back. -/
theorem readFields_memberTokens {taken fields : List Field}
    (h : ∀ field ∈ fields, PrintsField field) (hapart : Field.Apart (taken ++ fields))
    (last : Nat) :
    readFields last (taken.map (Field.renumber onto0)) (memberTokens fieldPieces fields) =
      .ok ((taken ++ fields).map (Field.renumber onto0)) := by
  induction fields generalizing taken with
  | nil =>
    rw [readFields_eq, List.append_nil]
    rfl
  | cons field fields ih =>
    rw [List.forall_mem_cons] at h
    have hread := readField_fieldPieces h.1 last (lacks_memberTokens_fieldPieces '=' fields)
    have hnew := checkNew_of_apart hapart
    obtain ⟨more, hfield⟩ := exists_tokensAt_fieldPieces field
    rw [List.append_cons taken field fields] at hapart ⊢
    rw [← ih h.2 hapart, readFields_eq, memberTokens_cons]
    rw [hfield] at hread ⊢
    simp only [List.cons_append, skipSeparators_word] at hread ⊢
    rw [hread]
    simp only [bind, Except.bind]
    rw [hnew, map_append_singleton]

theorem lacks_throws_functionPieces {function : Function} (h : PrintsFunction function)
    (rest : List Token) :
    Lacks (.word "throws") (tokensAt 0 (functionPieces function) ++ rest) := by
  rw [tokensAt_functionPieces]
  intro token htoken
  split at htoken
  · cases htoken
    decide
  · cases htoken
    have hword : returnWord function ≠ "throws" := returnWord_ne h (by decide) (by decide)
    simpa using hword

theorem lacks_memberTokens_functionPieces {functions : List Function}
    (h : ∀ function ∈ functions, PrintsFunction function) :
    Lacks (.word "throws") (memberTokens functionPieces functions) := by
  cases functions with
  | nil => exact lacks_nil _
  | cons function functions =>
    rw [List.forall_mem_cons] at h
    exact lacks_throws_functionPieces h.1 _

theorem skipSeparators_functionPieces (function : Function) (rest : List Token) :
    ∃ token more, tokensAt 0 (functionPieces function) ++ rest = token :: more ∧
      skipSeparators (token :: more) = token :: more := by
  rw [tokensAt_functionPieces]
  split
  · exact ⟨_, _, rfl, rfl⟩
  · exact ⟨_, _, rfl, rfl⟩

/-- The functions of a service are read back. -/
theorem readFunctions_memberTokens {taken functions : List Function}
    (h : ∀ function ∈ functions, PrintsFunction function)
    (hformed : ∀ function ∈ functions, function.WellFormed)
    (hnames : ((taken ++ functions).map (·.name)).Nodup) (last : Nat) :
    readFunctions last (taken.map (Function.renumber onto0))
        (memberTokens functionPieces functions) =
      .ok ((taken ++ functions).map (Function.renumber onto0)) := by
  induction functions generalizing taken with
  | nil =>
    rw [readFunctions_eq, List.append_nil]
    rfl
  | cons function functions ih =>
    rw [List.forall_mem_cons] at h hformed
    have hread := readFunction_functionPieces h.1 hformed.1 last
      (lacks_memberTokens_functionPieces h.2)
    have hnew : checkNewFunction taken function = .ok () := by
      rw [checkNewFunction_eq_ok_iff]
      rw [List.map_append, List.nodup_append] at hnames
      intro hname
      exact hnames.2.2 _ hname _ (List.mem_map_of_mem List.mem_cons_self) rfl
    rw [List.append_cons taken function functions] at hnames ⊢
    rw [← ih h.2 hformed.2 hnames, readFunctions_eq, memberTokens_cons]
    obtain ⟨token, more, htokens, hskip⟩ :=
      skipSeparators_functionPieces function (memberTokens functionPieces functions)
    rw [htokens] at hread ⊢
    rw [hskip]
    dsimp only
    rw [hread]
    simp only [bind, Except.bind]
    rw [checkNewFunction_renumber, hnew, map_append_singleton]
    rfl

/-- The number that a value without one of its own has after those taken. -/
def nextAfter (taken : List EnumValue) : Int :=
  match taken.getLast? with
  | none => 0
  | some value => value.value.toInt + 1

theorem nextAfter_append_singleton (taken : List EnumValue) (value : EnumValue) :
    nextAfter (taken ++ [value]) = value.value.toInt + 1 := by
  rw [nextAfter, List.getLast?_concat]

/-- The next number is found where it is one of 32 bits. -/
theorem nextNumber?_of_nextAfter {taken : List EnumValue} {value : Int32}
    (h : value.toInt = nextAfter taken) : nextNumber? taken = some value := by
  rw [nextAfter] at h
  rw [nextNumber?]
  cases hlast : taken.getLast? with
  | none =>
    rw [hlast] at h
    rw [← Int32.ofInt_toInt value, h]
    rfl
  | some before =>
    rw [hlast] at h
    dsimp only at h ⊢
    have hbound := value.toInt_lt
    have hbefore := before.value.le_toInt
    have hmax : before.value ≠ Int32.maxValue := by
      intro heq
      rw [heq] at h
      have hmaxValue : Int32.maxValue.toInt = 2147483647 := rfl
      omega
    have hnext : before.value + 1 = value := by
      rw [← Int32.toInt_inj, Int32.toInt_add, h]
      have hone : (1 : Int32).toInt = 1 := rfl
      rw [hone]
      apply Int.bmod_eq_of_le
      · omega
      · omega
    rw [if_neg hmax, hnext]

theorem readNumber_enumValuePieces {taken : List EnumValue} {value : EnumValue}
    (h : value.explicit = false → value.value.toInt = nextAfter taken) (name : Word)
    {rest : List Token} (hrest : Lacks (.mark '=') rest) :
    readNumber (taken.map (EnumValue.renumber onto0)) name
        (tokensAt 0 (if value.explicit then
          [.gap, .mark '=', .gap, .word (Text.ofInt value.value.toInt)] else []) ++ rest) =
      .ok ((value.value, value.explicit), rest) := by
  cases hexplicit : value.explicit with
  | true =>
    have hnumber := Text.literal32?_ofInt value.value
    simp only [if_true, tokensAt_gap, tokensAt_mark, tokensAt_word, tokensAt_nil,
      List.cons_append, List.nil_append, readNumber, eat_of_eq, Token.text, Lexeme.text, hnumber]
  | false =>
    have heat := eat_of_lacks hrest
    have hnumber := nextNumber?_of_nextAfter (h hexplicit)
    simp only [Bool.false_eq_true, if_false, tokensAt_nil, List.nil_append, readNumber, heat,
      nextNumber?_renumber, hnumber]

theorem lacks_memberTokens_enumValuePieces (values : List EnumValue) :
    Lacks (.mark '=') (memberTokens enumValuePieces values) := by
  cases values with
  | nil => exact lacks_nil _
  | cons value values =>
    intro token htoken
    cases htoken
    simp

/-- The values of an enum are read back. -/
theorem readEnumValues_memberTokens {taken values : List EnumValue}
    (h : ∀ value ∈ values, Identifier.isValid value.name = true)
    (hnumbered : Numbered (nextAfter taken) values) (hapart : EnumValue.Apart (taken ++ values)) :
    readEnumValues (taken.map (EnumValue.renumber onto0)) (memberTokens enumValuePieces values) =
      .ok ((taken ++ values).map (EnumValue.renumber onto0)) := by
  induction values generalizing taken with
  | nil => rw [memberTokens_nil, readEnumValues, List.append_nil]
  | cons value values ih =>
    rw [List.forall_mem_cons] at h
    have hname : checkIdentifier ⟨value.name, 0⟩ = .ok () := checkIdentifier_eq_ok_iff.2 h.1
    have hnumber := readNumber_enumValuePieces hnumbered.1 ⟨value.name, 0⟩
      (lacks_memberTokens_enumValuePieces values)
    have hnew : checkNewValue taken value = .ok () := checkNewValue_of_apart hapart
    have hnext : Numbered (nextAfter (taken ++ [value])) values := by
      rw [nextAfter_append_singleton]
      exact hnumbered.2
    rw [List.append_cons taken value values] at hapart ⊢
    rw [← ih h.2 hnext hapart, memberTokens_cons, enumValuePieces, tokensAt_word,
      List.cons_append, readEnumValues_cons]
    have hseparator : Token.isSeparator ⟨.word value.name, 0⟩ = false := rfl
    rw [if_neg (by simp [hseparator]), readEnumValue]
    simp only [bind, Except.bind]
    rw [hname]
    dsimp only
    rw [hnumber]
    dsimp only
    have hvalue : (⟨value.name, value.value, value.explicit, 0⟩ : EnumValue) =
      value.renumber onto0 := rfl
    rw [hvalue, checkNewValue_renumber, hnew]
    simp only [renumbered_ok]
    rw [map_append_singleton]

/-- A text between quotes is what taking the quotes away leaves. -/
theorem unquote_quoted (value : String) :
    String.ofList (unquote ("\"" ++ value ++ "\"").toList) = value := by
  have hquoted : ("\"" ++ value ++ "\"").toList = '"' :: (value.toList ++ ['"']) := by simp
  rw [hquoted, unquote, if_pos (by decide), if_pos (List.getLast?_concat ..), List.dropLast_concat,
    String.ofList_toList]

/-- The texts of a senum are read back. -/
theorem readSenumValues_memberTokens {taken values : List String} (h : (taken ++ values).Nodup) :
    readSenumValues (taken.map (⟨·, 0⟩)) (memberTokens senumValuePieces values) =
      .ok ((taken ++ values).map (⟨·, 0⟩)) := by
  induction values generalizing taken with
  | nil => rw [memberTokens_nil, readSenumValues, List.append_nil]
  | cons value values ih =>
    have hnew : (taken.map (⟨·, 0⟩ : String → Quoted)).find? (·.text == value) = none := by
      rw [Lookup.find?_eq_none_iff, List.map_map]
      intro hmem
      obtain ⟨text, htext, rfl⟩ := List.mem_map.1 hmem
      rw [List.nodup_append] at h
      exact h.2.2 text htext text List.mem_cons_self rfl
    rw [List.append_cons taken value values] at h ⊢
    rw [← ih h]
    change readSenumValues _ (⟨.literal ("\"" ++ value ++ "\""), 0⟩ :: _) = _
    have hseparator : ∀ text, Token.isSeparator ⟨.literal text, 0⟩ = false := fun _ => rfl
    rw [readSenumValues, if_neg (by simp [hseparator])]
    dsimp only
    rw [unquote_quoted, hnew, List.map_append]
    rfl

end Canonical

end ThriftIdl

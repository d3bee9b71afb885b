import ThriftIdl.Proofs.Canonical.Scanning

/-!
The lines of a canonical text are tidy.
-/

namespace ThriftIdl.Canonical

theorem isValueChar_of_isDigit {c : Char} (h : c.isDigit = true) : isValueChar c = true := by
  simp [isValueChar, Char.isAlphanum, h]

/-- The text of an integer is a word of value characters. -/
theorem whole_ofInt (value : Int) : Whole (Text.ofInt value).toList := by
  have hdigits : ∀ c ∈ Nat.toDigits 10 value.natAbs, isValueChar c = true := fun c hc =>
    isValueChar_of_isDigit (Nat.isDigit_of_mem_toDigits (by decide) (by decide) hc)
  rw [Text.ofInt, String.toList_ofList]
  split
  · apply whole_of_isValueChar (List.cons_ne_nil _ _)
    rw [List.forall_mem_cons]
    exact ⟨by decide, hdigits⟩
  · exact whole_of_isValueChar Nat.toDigits_ne_nil hdigits

theorem whole_of_isValid {name : String} (h : Identifier.isValid name = true) :
    Whole name.toList :=
  whole_of_spelledBy h

theorem whole_of_all (word : String) (hne : word.toList ≠ [])
    (h : word.toList.all isValueChar = true) : Whole word.toList :=
  whole_of_isValueChar hne (List.all_eq_true.1 h)

theorem whole_kind (kind : Kind) : Whole kind.word.toList := by
  cases kind
  all_goals exact whole_of_all _ (by decide) (by decide)

theorem valuePiece_of_word {value : String}
    (h : ∀ c ∈ value.toList, isValueChar c = true) : valuePiece value = .word value := by
  rw [valuePiece, if_neg]
  intro hquote
  have hvalue := h '"' (List.mem_of_mem_head? hquote)
  revert hvalue
  decide

theorem valuePiece_of_literal {value : String} {inner : List Char}
    (h : value.toList = '"' :: (inner ++ ['"'])) :
    valuePiece value = .lexeme (.literal value) := by
  rw [valuePiece, if_pos (by rw [h]; rfl)]

theorem fits_valuePiece {value : String} (h : IsValue value) :
    (valuePiece value).Fits ∧ (valuePiece value).ends = true := by
  rcases h with ⟨hne, hword⟩ | ⟨inner, htext, hinner⟩
  · rw [valuePiece_of_word hword]
    exact ⟨whole_of_isValueChar hne hword, rfl⟩
  · rw [valuePiece_of_literal htext]
    exact ⟨⟨inner, htext, hinner⟩, rfl⟩

/-- A word may stand before the pieces. -/
def Parts (line : List Piece) : Prop :=
  ∀ next ∈ line.head?, ∀ piece : Piece, piece.before next = true

theorem parts_nil : Parts [] := by simp [Parts]

theorem parts_gap (line : List Piece) : Parts (.gap :: line) := by
  intro next hnext piece
  cases hnext
  rcases piece with ⟨_ | _ | _⟩ | _
  all_goals rfl

theorem parts_mark (c : Char) (line : List Piece) : Parts (.mark c :: line) := by
  intro next hnext piece
  cases hnext
  rcases piece with ⟨_ | _ | _⟩ | _
  all_goals rfl

theorem sound_nil : Sound [] := ⟨by simp, by simp⟩

theorem Sound.cons {piece : Piece} {line : List Piece} (hfits : piece.Fits) (hline : Sound line)
    (h : ∀ next ∈ line.head?, piece.before next = true) : Sound (piece :: line) where
  fits := List.forall_mem_cons.2 ⟨hfits, hline.fits⟩
  parted := List.isChain_cons.2 ⟨h, hline.parted⟩

theorem sound_gap {line : List Piece} (h : Sound line) : Sound (.gap :: line) :=
  h.cons trivial fun _ _ => rfl

theorem sound_mark (c : Char) (hc : Lexeme.isMark c = true) {line : List Piece}
    (h : Sound line) : Sound (.mark c :: line) :=
  h.cons hc fun _ _ => rfl

theorem sound_word {word : String} (hword : Whole word.toList) {line : List Piece}
    (hparts : Parts line) (h : Sound line) : Sound (.word word :: line) :=
  h.cons hword fun next hnext => hparts next hnext (.word word)

theorem sound_value {value : String} (h : IsValue value) : Sound [valuePiece value] :=
  sound_nil.cons (fits_valuePiece h).1 (by simp)

/-- Pieces that start with a gap or a mark may follow any others. -/
theorem Sound.append_parts {left right : List Piece} (hleft : Sound left) (hright : Sound right)
    (h : Parts right) : Sound (left ++ right) :=
  hleft.append hright fun piece _ next hnext => h next hnext piece

theorem sound_defaultPieces {value? : Option String} (h : ∀ value ∈ value?, IsValue value) :
    Sound (defaultPieces value?) ∧ Parts (defaultPieces value?) := by
  cases value? with
  | none => exact ⟨sound_nil, parts_nil⟩
  | some value =>
    have hvalue := sound_value (h value rfl)
    exact ⟨sound_gap (sound_mark '=' (by decide) (sound_gap hvalue)), parts_gap _⟩

theorem sound_requirednessPieces (requiredness : Requiredness) {line : List Piece}
    (h : Sound line) : Sound (requirednessPieces requiredness ++ line) := by
  cases requiredness with
  | required =>
    exact sound_word (whole_of_all "required" (by decide) (by decide)) (parts_gap _) (sound_gap h)
  | optional =>
    exact sound_word (whole_of_all "optional" (by decide) (by decide)) (parts_gap _) (sound_gap h)
  | unstated => exact h

theorem sound_fieldPieces {field : Field} (h : PrintsField field) : Sound (fieldPieces field) := by
  obtain ⟨hdefault, hparts⟩ := sound_defaultPieces h.default
  have hname := sound_word (whole_of_isValid h.name) hparts hdefault
  have htype := sound_word h.type.whole (parts_gap _) (sound_gap hname)
  have hrequiredness := sound_requirednessPieces field.requiredness htype
  have hid := sound_word (whole_ofInt field.id.toInt) (parts_mark _ _)
    (sound_mark ':' (by decide) (sound_gap hrequiredness))
  simpa [fieldPieces] using hid

theorem sound_furtherPieces {fields : List Field} (h : ∀ field ∈ fields, PrintsField field) :
    Sound (furtherPieces fields) ∧ Parts (furtherPieces fields) := by
  induction fields with
  | nil => exact ⟨sound_nil, parts_nil⟩
  | cons field rest ih =>
    rw [List.forall_mem_cons] at h
    obtain ⟨hrest, hparts⟩ := ih h.2
    have hfield := (sound_fieldPieces h.1).append_parts hrest hparts
    exact ⟨sound_mark ',' (by decide) (sound_gap hfield), parts_mark _ _⟩

theorem sound_separatedPieces {fields : List Field} (h : ∀ field ∈ fields, PrintsField field) :
    Sound (separatedPieces fields) := by
  cases fields with
  | nil => exact sound_nil
  | cons field rest =>
    rw [List.forall_mem_cons] at h
    obtain ⟨hrest, hparts⟩ := sound_furtherPieces h.2
    exact (sound_fieldPieces h.1).append_parts hrest hparts

theorem sound_listPieces {fields : List Field} (h : ∀ field ∈ fields, PrintsField field) :
    Sound (listPieces fields) ∧ Parts (listPieces fields) := by
  have hclose := sound_mark ')' (by decide) sound_nil
  have hfields := (sound_separatedPieces h).append_parts hclose (parts_mark _ _)
  exact ⟨sound_mark '(' (by decide) hfields, parts_mark _ _⟩

theorem sound_throwsPieces {fields : List Field} (h : ∀ field ∈ fields, PrintsField field) :
    Sound (throwsPieces fields) ∧ Parts (throwsPieces fields) := by
  cases fields with
  | nil => exact ⟨sound_nil, parts_nil⟩
  | cons field rest =>
    have hlist := sound_gap (sound_listPieces h).1
    have hthrows := sound_word (whole_of_all "throws" (by decide) (by decide)) (parts_gap _) hlist
    exact ⟨sound_gap hthrows, parts_gap _⟩

theorem whole_returnType {function : Function} (h : PrintsFunction function) :
    Whole (function.returnType?.getD voidWord).toList := by
  cases htype : function.returnType? with
  | none => exact whole_of_all voidWord (by decide) (by decide)
  | some type => exact (h.returnType type htype).whole

theorem sound_functionPieces {function : Function} (h : PrintsFunction function) :
    Sound (functionPieces function) := by
  obtain ⟨hthrows, hthrowsParts⟩ := sound_throwsPieces h.throws
  obtain ⟨hparams, hparamsParts⟩ := sound_listPieces h.params
  have hlists := hparams.append_parts hthrows hthrowsParts
  have hlistsParts : Parts (listPieces function.params ++ throwsPieces function.throws) :=
    parts_mark _ _
  have hname := sound_word (whole_of_isValid h.name) hlistsParts hlists
  have htype := sound_word (whole_returnType h) (parts_gap _) (sound_gap hname)
  rw [functionPieces]
  split
  · have honeway := sound_word (whole_of_all "oneway" (by decide) (by decide)) (parts_gap _)
      (sound_gap htype)
    simpa using honeway
  · simpa using htype

theorem sound_enumValuePieces {value : EnumValue} (h : Identifier.isValid value.name = true) :
    Sound (enumValuePieces value) := by
  rw [enumValuePieces]
  split
  · have hnumber := sound_word (whole_ofInt value.value.toInt) parts_nil sound_nil
    exact sound_word (whole_of_isValid h) (parts_gap _)
      (sound_gap (sound_mark '=' (by decide) (sound_gap hnumber)))
  · exact sound_word (whole_of_isValid h) parts_nil sound_nil

theorem sound_senumValuePieces {value : String} (h : ∀ c ∈ value.toList, isPlain c = true) :
    Sound (senumValuePieces value) := by
  have hfits : (Piece.lexeme (.literal ("\"" ++ value ++ "\""))).Fits :=
    ⟨value.toList, by simp, h⟩
  exact sound_nil.cons hfits (by simp)

theorem sound_tailPieces {body : Body} (h : PrintsBody body) :
    Sound (tailPieces body) ∧ Parts (tailPieces body) := by
  have hopen := sound_gap (sound_mark '{' (by decide) sound_nil)
  cases body with
  | const type value =>
    exact ⟨sound_gap (sound_mark '=' (by decide) (sound_gap (sound_value h.2))), parts_gap _⟩
  | typedef type => exact ⟨sound_nil, parts_nil⟩
  | service base? functions =>
    cases base? with
    | none => exact ⟨hopen, parts_gap _⟩
    | some base =>
      have hbase := sound_word (whole_of_isValid (h.1 base rfl)) (parts_gap _) hopen
      have hextends := sound_word (whole_of_all "extends" (by decide) (by decide)) (parts_gap _)
        (sound_gap hbase)
      exact ⟨sound_gap hextends, parts_gap _⟩
  | _ => exact ⟨hopen, parts_gap _⟩

theorem sound_typePieces {body : Body} (h : PrintsBody body) {line : List Piece}
    (hline : Sound line) : Sound (typePieces body ++ line) := by
  cases body with
  | const type value => exact sound_word h.1.whole (parts_gap _) (sound_gap hline)
  | typedef type => exact sound_word h.whole (parts_gap _) (sound_gap hline)
  | _ => exact hline

theorem sound_firstLine {definition : Definition}
    (hname : Identifier.isValid definition.name = true) (h : PrintsBody definition.body) :
    Sound (firstLine definition) := by
  obtain ⟨htail, hparts⟩ := sound_tailPieces h
  have hrest := sound_typePieces h (sound_word (whole_of_isValid hname) hparts htail)
  have hfirst := sound_word (whole_kind definition.kind) (parts_gap _) (sound_gap hrest)
  simpa [firstLine] using hfirst

/-- A line may end where the pieces end, if there are any. -/
def Ends (line : List Piece) : Prop := ∀ piece ∈ line.getLast?, piece.ends = true

theorem ends_nil : Ends [] := by simp [Ends]

theorem ends_singleton {piece : Piece} (h : piece.ends = true) : Ends [piece] := by
  simpa [Ends] using h

theorem Ends.append {left right : List Piece} (hleft : Ends left) (hright : Ends right) :
    Ends (left ++ right) := by
  intro piece hpiece
  rw [List.getLast?_append, Option.mem_def, Option.or_eq_some_iff] at hpiece
  rcases hpiece with hpiece | ⟨-, hpiece⟩
  · exact hright piece hpiece
  · exact hleft piece hpiece

theorem Ends.after {right : List Piece} (h : Ends right) (hne : right ≠ []) (left : List Piece) :
    Ends (left ++ right) := by
  intro piece hpiece
  rw [List.getLast?_append_of_ne_nil left hne] at hpiece
  exact h piece hpiece

theorem ends_concat {piece : Piece} (h : piece.ends = true) (left : List Piece) :
    Ends (left ++ [piece]) :=
  (ends_singleton h).after (List.cons_ne_nil _ _) left

theorem ends_defaultPieces {value? : Option String} (h : ∀ value ∈ value?, IsValue value) :
    Ends (defaultPieces value?) := by
  cases value? with
  | none => exact ends_nil
  | some value => exact ends_concat (fits_valuePiece (h value rfl)).2 [.gap, .mark '=', .gap]

theorem ends_fieldPieces {field : Field} (h : PrintsField field) : Ends (fieldPieces field) := by
  have hname : Ends [.word field.type, .gap, .word field.name] :=
    ends_concat rfl [.word field.type, .gap]
  exact (hname.after (List.cons_ne_nil _ _) _).append (ends_defaultPieces h.default)

theorem ends_listPieces (fields : List Field) : Ends (listPieces fields) :=
  ends_concat rfl (.mark '(' :: separatedPieces fields)

theorem ends_throwsPieces (fields : List Field) : Ends (throwsPieces fields) := by
  cases fields with
  | nil => exact ends_nil
  | cons field rest => exact (ends_listPieces (field :: rest)).after (List.cons_ne_nil _ _) _

theorem ends_functionPieces (function : Function) : Ends (functionPieces function) := by
  have hparams := (ends_listPieces function.params).after (List.cons_ne_nil _ _)
    ((if function.oneway then [.word "oneway", .gap] else []) ++
      [.word (function.returnType?.getD voidWord), .gap, .word function.name])
  exact hparams.append (ends_throwsPieces function.throws)

theorem ends_enumValuePieces (value : EnumValue) : Ends (enumValuePieces value) := by
  rw [enumValuePieces]
  split
  · exact ends_concat rfl [.word value.name, .gap, .mark '=', .gap]
  · exact ends_singleton rfl

theorem ends_tailPieces {body : Body} (h : PrintsBody body) : Ends (tailPieces body) := by
  have hopen : Ends [.gap, .mark '{'] := ends_concat rfl [.gap]
  cases body with
  | const type value => exact ends_concat (fits_valuePiece h.2).2 [.gap, .mark '=', .gap]
  | typedef type => exact ends_nil
  | _ => exact hopen.after (List.cons_ne_nil _ _) _

theorem ends_firstLine {definition : Definition} (h : PrintsBody definition.body) :
    Ends (firstLine definition) :=
  (ends_concat rfl _).append (ends_tailPieces h)

/-- A sound line that starts with a lexeme and ends well is tidy. -/
theorem tidy_of_ends {piece : Piece} {rest : List Piece} (h : Sound (piece :: rest))
    (hhead : piece.lexeme?.isSome = true) (hends : Ends (piece :: rest)) :
    Tidy (piece :: rest) where
  toSound := h
  ne_nil := List.cons_ne_nil piece rest
  head := by simpa using hhead
  last := hends

theorem tidy_fieldPieces {field : Field} (h : PrintsField field) : Tidy (fieldPieces field) :=
  tidy_of_ends (sound_fieldPieces h) rfl (ends_fieldPieces h)

theorem tidy_functionPieces {function : Function} (h : PrintsFunction function) :
    Tidy (functionPieces function) := by
  have hsound := sound_functionPieces h
  have hends := ends_functionPieces function
  rw [functionPieces] at hsound hends ⊢
  cases hwords : (if function.oneway then [.word "oneway", .gap] else [] : List Piece) with
  | nil =>
    rw [hwords] at hsound hends
    exact tidy_of_ends hsound rfl hends
  | cons piece rest =>
    rw [hwords] at hsound hends
    split at hwords
    · cases hwords
      exact tidy_of_ends hsound rfl hends
    · cases hwords

theorem tidy_enumValuePieces {value : EnumValue} (h : Identifier.isValid value.name = true) :
    Tidy (enumValuePieces value) :=
  tidy_of_ends (sound_enumValuePieces h) rfl (ends_enumValuePieces value)

theorem tidy_senumValuePieces {value : String} (h : ∀ c ∈ value.toList, isPlain c = true) :
    Tidy (senumValuePieces value) :=
  tidy_of_ends (sound_senumValuePieces h) rfl (ends_singleton rfl)

theorem tidy_firstLine {definition : Definition}
    (hname : Identifier.isValid definition.name = true) (h : PrintsBody definition.body) :
    Tidy (firstLine definition) :=
  tidy_of_ends (sound_firstLine hname h) rfl (ends_firstLine h)

theorem tidy_close : Tidy [.mark '}'] :=
  tidy_of_ends (sound_mark '}' (by decide) sound_nil) rfl (ends_singleton rfl)

theorem tidy_memberLines {body : Body} (h : PrintsBody body) :
    ∀ line ∈ memberLines body, Tidy line := by
  cases body with
  | const type value => simp [memberLines]
  | typedef type => simp [memberLines]
  | enum values =>
    intro line hline
    obtain ⟨value, hvalue, rfl⟩ := List.mem_map.1 hline
    exact tidy_enumValuePieces (h.1 value hvalue)
  | senum values =>
    intro line hline
    obtain ⟨value, hvalue, rfl⟩ := List.mem_map.1 hline
    exact tidy_senumValuePieces (h value hvalue)
  | struct fields =>
    intro line hline
    obtain ⟨field, hfield, rfl⟩ := List.mem_map.1 hline
    exact tidy_fieldPieces (h field hfield)
  | exception fields =>
    intro line hline
    obtain ⟨field, hfield, rfl⟩ := List.mem_map.1 hline
    exact tidy_fieldPieces (h field hfield)
  | service base? functions =>
    intro line hline
    obtain ⟨function, hfunction, rfl⟩ := List.mem_map.1 hline
    exact tidy_functionPieces (h.2 function hfunction)

/-- Every line of a definition that can be printed is tidy. -/
theorem tidy_of_mem_definitionLines {definition : Definition}
    (hname : Identifier.isValid definition.name = true) (h : PrintsBody definition.body) :
    ∀ line ∈ definitionLines definition, Tidy line := by
  rw [definitionLines, List.forall_mem_cons]
  refine ⟨tidy_firstLine hname h, ?_⟩
  have hmembers : ∀ line ∈ memberLines definition.body ++ [[.mark '}']], Tidy line := by
    rw [List.forall_mem_append, List.forall_mem_singleton]
    exact ⟨tidy_memberLines h, tidy_close⟩
  cases hbody : definition.body with
  | const type value => simp [furtherLines]
  | typedef type => simp [furtherLines]
  | _ =>
    rw [hbody] at hmembers
    exact hmembers

end ThriftIdl.Canonical

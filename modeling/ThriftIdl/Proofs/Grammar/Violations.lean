import ThriftIdl.Proofs.Grammar.WellFormed

/-!
Where reading fails. A reader that works on tokens and lines with a property reports a line with
this property, and, once the first word of a definition is known, a rule on what the definition
holds.
-/

namespace ThriftIdl

/-- The rule is one on what a definition holds. -/
def Rule.IsInner : Rule → Prop
  | unexpectedWord _ => False
  | noDefinitions => False
  | noTokens => False
  | _ => True

namespace Grammar

variable {α β : Type} {P : Nat → Prop} {tokens rest : List Token} {last : Nat}

/-- If the reading fails, then at a line with the property and on what a definition holds. -/
def Blames (P : Nat → Prop) (result : Reading α) : Prop :=
  ∀ violation, result = .error violation → P violation.line ∧ violation.rule.IsInner

theorem blames_ok (value : α) : Blames P (.ok value) := by
  rintro violation ⟨⟩

theorem blames_error {violation : Violation} (hline : P violation.line)
    (hrule : violation.rule.IsInner) : Blames P (.error violation : Reading α) := by
  rintro _ ⟨⟩
  exact ⟨hline, hrule⟩

/-- A reading that fails because another did is to blame for no more than that one. -/
theorem Blames.error {first : Reading α} {violation : Violation} (h : Blames P first)
    (heq : first = .error violation) : Blames P (.error violation : Reading β) :=
  blames_error (h violation heq).1 (h violation heq).2

theorem blames_misshapen {construct : Construct} {line : Nat} {defect : Defect} (h : P line) :
    Blames P (misshapen construct line defect : Reading α) :=
  blames_error h trivial

theorem Blames.bind {first : Reading α} {second : α → Reading β} (hfirst : Blames P first)
    (hsecond : ∀ value, first = .ok value → Blames P (second value)) :
    Blames P (first >>= second) := by
  cases first with
  | ok value => exact hsecond value rfl
  | error violation =>
    rintro _ ⟨⟩
    exact hfirst violation rfl

theorem LinesIn.lineOf (h : LinesIn P tokens) (hlast : P last) : P (lineOf last tokens) := by
  cases tokens with
  | nil => exact hlast
  | cons token rest => exact h token List.mem_cons_self

theorem LinesIn.eat {lexeme : Lexeme} {found : Bool} (h : LinesIn P tokens)
    (heat : eat lexeme tokens = (found, rest)) : LinesIn P rest :=
  h.of_suffix (eat_suffix heat)

theorem expectWord_blames {construct : Construct} {what : Expectation} (htokens : LinesIn P tokens)
    (hlast : P last) : Blames P (expectWord construct what last tokens) := by
  unfold expectWord
  split
  · exact blames_ok _
  · exact blames_misshapen (htokens _ List.mem_cons_self)
  · exact blames_misshapen hlast

theorem checkIdentifier_blames {word : Word} (h : P word.line) :
    Blames P (checkIdentifier word) := by
  unfold checkIdentifier
  split
  · exact blames_ok _
  · exact blames_error h trivial

theorem declare_blames {taken : List Definition} {word : Word} (h : P word.line) :
    Blames P (declare taken word) := by
  refine (checkIdentifier_blames h).bind ?_
  intro _ _
  split
  · exact blames_error h trivial
  · exact blames_ok _

theorem readValue_blames {construct : Construct} (htokens : LinesIn P tokens) (hlast : P last) :
    Blames P (readValue construct last tokens) := by
  unfold readValue
  split
  · exact blames_misshapen hlast
  · have hline := htokens _ List.mem_cons_self
    split
    · exact blames_ok _
    · exact blames_ok _
    · split
      · exact blames_ok _
      · exact blames_misshapen hline
    · exact blames_misshapen hline

theorem readFieldId_blames (htokens : LinesIn P tokens) (hlast : P last) :
    Blames P (readFieldId last tokens) := by
  refine (expectWord_blames htokens hlast).bind ?_
  rintro ⟨word, after⟩ hword
  have hafter := htokens.of_suffix (expectWord_leaves hword).suffix
  dsimp only
  split
  · exact blames_misshapen (htokens.head (expectWord_lines hword))
  · split
    · exact blames_ok _
    · next heat => exact blames_misshapen ((hafter.eat heat).lineOf hlast)

theorem readFieldType_blames (htokens : LinesIn P tokens) (hlast : P last) :
    Blames P (readFieldType last tokens) := by
  refine (expectWord_blames htokens hlast).bind ?_
  rintro ⟨word, after⟩ hword
  have hafter := htokens.of_suffix (expectWord_leaves hword).suffix
  dsimp only
  split
  · exact blames_ok _
  · exact (expectWord_blames hafter hlast).bind fun _ _ => blames_ok _

theorem readDefault_blames (htokens : LinesIn P tokens) (hlast : P last) :
    Blames P (readDefault last tokens) := by
  unfold readDefault
  split
  · next heat => exact (readValue_blames (htokens.eat heat) hlast).bind fun _ _ => blames_ok _
  · exact blames_ok _

theorem readField_blames (htokens : LinesIn P tokens) (hlast : P last) :
    Blames P (readField last tokens) := by
  refine (readFieldId_blames htokens hlast).bind ?_
  rintro ⟨⟨id, line⟩, afterId⟩ hid
  have hafterId := htokens.of_suffix (readFieldId_leaves hid).suffix
  refine (readFieldType_blames hafterId hlast).bind ?_
  rintro ⟨type, afterType⟩ htype
  have hafterType := hafterId.of_suffix (readFieldType_leaves htype).suffix
  refine (expectWord_blames hafterType hlast).bind ?_
  rintro ⟨name, afterName⟩ hname
  have hafterName := hafterType.of_suffix (expectWord_leaves hname).suffix
  refine (checkIdentifier_blames (hafterType.head (expectWord_lines hname))).bind ?_
  intro _ _
  exact (readDefault_blames hafterName hlast).bind fun _ _ => blames_ok _

theorem checkNew_blames {taken : List Field} {field : Field} (h : P field.line) :
    Blames P (checkNew taken field) := by
  unfold checkNew
  split
  · exact blames_error h trivial
  · split
    · exact blames_error h trivial
    · exact blames_ok _

theorem readEntry_blames {bare : Bool} {taken : List Field} (htokens : LinesIn P tokens)
    (hlast : P last) : Blames P (readEntry bare last taken tokens) := by
  unfold readEntry
  split
  · exact (expectWord_blames htokens hlast).bind fun _ _ => blames_ok _
  · exact readField_blames htokens hlast

theorem readFields_blames {taken : List Field} (htokens : LinesIn P tokens) (hlast : P last) :
    Blames P (readFields last taken tokens) := by
  fun_induction readFields last taken tokens with
  | case1 => exact blames_ok _
  | case2 taken tokens token after hskip violation hread =>
    have hskipped : LinesIn P (token :: after) := hskip ▸ htokens.skipSeparators
    exact (readField_blames hskipped hlast).error hread
  | case3 taken tokens token after hskip field remaining hread violation hnew =>
    have hskipped : LinesIn P (token :: after) := hskip ▸ htokens.skipSeparators
    exact (checkNew_blames (hskipped.head (readField_lines hread))).error hnew
  | case4 taken tokens token after hskip field remaining hread _ ih =>
    have hskipped : LinesIn P (token :: after) := hskip ▸ htokens.skipSeparators
    exact ih (hskipped.of_suffix (readField_leaves hread).suffix)

theorem readEntries_blames {bare : Bool} {opened : Nat} {taken : List Field}
    (htokens : LinesIn P tokens) (hlast : P last) (hopened : P opened) :
    Blames P (readEntries bare last opened taken tokens) := by
  fun_induction readEntries bare last opened taken tokens with
  | case1 => exact blames_misshapen hopened
  | case2 => exact blames_ok _
  | case3 taken tokens token after hskip _ violation hread =>
    have hskipped : LinesIn P (token :: after) := hskip ▸ htokens.skipSeparators
    exact (readEntry_blames hskipped hlast).error hread
  | case4 taken tokens token after hskip _ field remaining hread violation hnew =>
    have hskipped : LinesIn P (token :: after) := hskip ▸ htokens.skipSeparators
    exact (checkNew_blames (hskipped.head (readEntry_lines hread))).error hnew
  | case5 taken tokens token after hskip _ field remaining hread _ ih =>
    have hskipped : LinesIn P (token :: after) := hskip ▸ htokens.skipSeparators
    exact ih (hskipped.of_suffix (readEntry_leaves hread).suffix)

theorem readParams_blames {function : Word} (htokens : LinesIn P tokens) (hlast : P last) :
    Blames P (readParams last function tokens) := by
  unfold readParams
  split
  · next heat => exact blames_misshapen ((htokens.eat heat).lineOf hlast)
  · next heat =>
    have hafter := htokens.eat heat
    exact readEntries_blames hafter hlast (hafter.lineOf hlast)

theorem readThrows_blames (htokens : LinesIn P tokens) (hlast : P last) :
    Blames P (readThrows last tokens) := by
  unfold readThrows
  split
  · exact blames_ok _
  · next hword =>
    have hafter := htokens.eat hword
    split
    · next heat => exact blames_misshapen ((hafter.eat heat).lineOf hlast)
    · next heat =>
      have hinner := hafter.eat heat
      exact readEntries_blames hinner hlast (hinner.lineOf hlast)

theorem checkOneway_blames {function : Function} (h : P function.line) :
    Blames P (checkOneway function) := by
  unfold checkOneway
  split
  · exact blames_misshapen h
  · exact blames_ok _

theorem readFunction_blames (htokens : LinesIn P tokens) (hlast : P last) :
    Blames P (readFunction last tokens) := by
  have hoptional : LinesIn P (eat (.word "oneway") tokens).2 := htokens.eat rfl
  refine (expectWord_blames hoptional hlast).bind ?_
  rintro ⟨type, afterType⟩ htype
  have hafterType := hoptional.of_suffix (expectWord_leaves htype).suffix
  refine (expectWord_blames hafterType hlast).bind ?_
  rintro ⟨name, afterName⟩ hname
  have hafterName := hafterType.of_suffix (expectWord_leaves hname).suffix
  refine (checkIdentifier_blames (hafterType.head (expectWord_lines hname))).bind ?_
  intro _ _
  refine (readParams_blames hafterName hlast).bind ?_
  rintro ⟨params, afterParams⟩ hparams
  have hafterParams := hafterName.of_suffix (readParams_leaves hparams).suffix
  refine (readThrows_blames hafterParams hlast).bind ?_
  intro _ _
  exact (checkOneway_blames (htokens.lineOf hlast)).bind fun _ _ => blames_ok _

theorem checkNewFunction_blames {taken : List Function} {function : Function}
    (h : P function.line) : Blames P (checkNewFunction taken function) := by
  unfold checkNewFunction
  split
  · exact blames_error h trivial
  · exact blames_ok _

theorem readFunctions_blames {taken : List Function} (htokens : LinesIn P tokens)
    (hlast : P last) : Blames P (readFunctions last taken tokens) := by
  fun_induction readFunctions last taken tokens with
  | case1 => exact blames_ok _
  | case2 taken tokens token after hskip violation hread =>
    have hskipped : LinesIn P (token :: after) := hskip ▸ htokens.skipSeparators
    exact (readFunction_blames hskipped hlast).error hread
  | case3 taken tokens token after hskip function remaining hread violation hnew =>
    have hskipped : LinesIn P (token :: after) := hskip ▸ htokens.skipSeparators
    exact (checkNewFunction_blames (hskipped.head (readFunction_lines hread))).error hnew
  | case4 taken tokens token after hskip function remaining hread _ ih =>
    have hskipped : LinesIn P (token :: after) := hskip ▸ htokens.skipSeparators
    exact ih (hskipped.of_suffix (readFunction_leaves hread).suffix)

theorem readNumber_blames {taken : List EnumValue} {name : Word} (htokens : LinesIn P tokens)
    (hname : P name.line) : Blames P (readNumber taken name tokens) := by
  unfold readNumber
  split
  · exact blames_misshapen hname
  · next heat =>
    split
    · exact blames_ok _
    · exact blames_misshapen (htokens.eat heat _ List.mem_cons_self)
  · split
    · exact blames_ok _
    · exact blames_misshapen hname

theorem checkNewValue_blames {taken : List EnumValue} {value : EnumValue} (h : P value.line) :
    Blames P (checkNewValue taken value) := by
  unfold checkNewValue
  split
  · exact blames_error h trivial
  · split
    · exact blames_error h trivial
    · exact blames_ok _

theorem readEnumValue_blames {taken : List EnumValue} {name : Token} (htokens : LinesIn P tokens)
    (hname : P name.line) : Blames P (readEnumValue taken name tokens) := by
  unfold readEnumValue
  split
  · refine (checkIdentifier_blames hname).bind ?_
    intro _ _
    refine (readNumber_blames htokens hname).bind ?_
    intro _ _
    exact (checkNewValue_blames hname).bind fun _ _ => blames_ok _
  · exact blames_misshapen hname

theorem readEnumValues_blames {taken : List EnumValue} (htokens : LinesIn P tokens) :
    Blames P (readEnumValues taken tokens) := by
  fun_induction readEnumValues taken tokens with
  | case1 => exact blames_ok _
  | case2 taken token rest _ ih => exact ih (htokens.of_suffix (List.suffix_cons token rest))
  | case3 taken token rest _ violation hread =>
    have hrest := htokens.of_suffix (List.suffix_cons token rest)
    exact (readEnumValue_blames hrest (htokens token List.mem_cons_self)).error hread
  | case4 taken token rest _ value after hread _ ih =>
    have hrest := htokens.of_suffix (List.suffix_cons token rest)
    exact ih (hrest.of_suffix (readEnumValue_suffix hread))

theorem readSenumValues_blames {taken : List Quoted} (htokens : LinesIn P tokens) :
    Blames P (readSenumValues taken tokens) := by
  fun_induction readSenumValues taken tokens with
  | case1 => exact blames_ok _
  | case2 taken token rest _ ih => exact ih (htokens.of_suffix (List.suffix_cons token rest))
  | case3 => exact blames_error (htokens _ List.mem_cons_self) trivial
  | case4 taken token rest _ _ _ _ _ ih =>
    exact ih (htokens.of_suffix (List.suffix_cons token rest))
  | case5 => exact blames_misshapen (htokens _ List.mem_cons_self)

/-- The brace that closes a block is one of the tokens, and so is what follows it. -/
theorem LinesIn.closed {depth close : Nat} {inner after : List Token} (h : LinesIn P tokens)
    (hpart : blockPart depth tokens = .closed inner close after) : P close ∧ LinesIn P after := by
  obtain ⟨brace, -, rfl, rfl⟩ := blockPart_eq_closed_iff.1 hpart
  exact ⟨h brace (by simp), h.of_suffix ((List.suffix_cons _ _).trans (List.suffix_append _ _))⟩

theorem NumbersIn.tail {line : Line} {lines : List Line} (h : NumbersIn P (line :: lines)) :
    NumbersIn P lines :=
  fun other hother => h other (List.mem_cons_of_mem line hother)

theorem closeBlock_blames {kind : Kind} {start depth : Nat} {lines : List Line}
    (hstart : P start) (htokens : LinesIn P tokens) (hlines : NumbersIn P lines) :
    Blames P (closeBlock kind start depth tokens lines) := by
  induction lines generalizing depth tokens with
  | nil =>
    rw [closeBlock]
    split
    · exact blames_ok _
    · next hpart => exact blames_misshapen ((htokens.closed hpart).2 _ List.mem_cons_self)
    · exact blames_misshapen hstart
  | cons line lines ih =>
    rw [closeBlock]
    split
    · exact blames_ok _
    · next hpart => exact blames_misshapen ((htokens.closed hpart).2 _ List.mem_cons_self)
    · have hline := linesIn_tokens (hlines line List.mem_cons_self)
      exact (ih hline hlines.tail).bind fun _ _ => blames_ok _

/-- The closing brace of a block is one of its tokens. -/
theorem closeBlock_last {kind : Kind} {start depth : Nat} {lines : List Line} {block : Block}
    (htokens : LinesIn P tokens) (hlines : NumbersIn P lines)
    (h : closeBlock kind start depth tokens lines = .ok block) : P block.last := by
  induction lines generalizing depth tokens block with
  | nil =>
    rw [closeBlock] at h
    split at h
    · next hpart =>
      cases h
      exact (htokens.closed hpart).1
    · cases h
    · cases h
  | cons line lines ih =>
    rw [closeBlock] at h
    split at h
    · next hpart =>
      cases h
      exact (htokens.closed hpart).1
    · cases h
    · obtain ⟨more, hmore, h⟩ := bind_eq_ok.1 h
      cases h
      have hlast := ih (linesIn_tokens (hlines line List.mem_cons_self)) hlines.tail hmore
      exact hlast

theorem openBlock_blames {kind : Kind} {start : Nat} {lines : List Line} (hstart : P start)
    (htokens : LinesIn P tokens) (hlines : NumbersIn P lines) :
    Blames P (openBlock kind start tokens lines) := by
  unfold openBlock
  split
  · exact blames_misshapen hstart
  · split
    · exact closeBlock_blames hstart (htokens.of_suffix (List.suffix_cons _ _)) hlines
    · exact blames_misshapen (htokens _ List.mem_cons_self)

theorem openBlock_last {kind : Kind} {start : Nat} {lines : List Line} {block : Block}
    (htokens : LinesIn P tokens) (hlines : NumbersIn P lines)
    (h : openBlock kind start tokens lines = .ok block) : P block.last := by
  unfold openBlock at h
  split at h
  · cases h
  · split at h
    · exact closeBlock_last (htokens.of_suffix (List.suffix_cons _ _)) hlines h
    · cases h

theorem readBlock_blames {kind : Kind} {start : Nat} {lines : List Line} (hstart : P start)
    (htokens : LinesIn P tokens) (hlines : NumbersIn P lines) :
    Blames P (readBlock kind start tokens lines) := by
  unfold readBlock
  split
  · next line rest =>
    have hline := linesIn_tokens (hlines line List.mem_cons_self)
    exact (openBlock_blames hstart hline hlines.tail).bind fun _ _ => blames_ok _
  · exact openBlock_blames hstart htokens hlines

theorem readBlock_last {kind : Kind} {start : Nat} {lines : List Line} {block : Block}
    (htokens : LinesIn P tokens) (hlines : NumbersIn P lines)
    (h : readBlock kind start tokens lines = .ok block) : P block.last := by
  unfold readBlock at h
  split at h
  · next line rest =>
    obtain ⟨inner, hinner, h⟩ := bind_eq_ok.1 h
    cases h
    have hline := linesIn_tokens (hlines line List.mem_cons_self)
    have hlast := openBlock_last hline hlines.tail hinner
    exact hlast
  · exact openBlock_last htokens hlines h

theorem readConst_blames {taken : List Definition} {start : Nat} (hstart : P start)
    (htokens : LinesIn P tokens) : Blames P (readConst taken start tokens) := by
  simp only [readConst]
  split
  · split
    · have hname := htokens _ (List.mem_cons_of_mem _ List.mem_cons_self)
      exact (declare_blames hname).bind fun _ _ => blames_ok _
    · exact blames_misshapen hstart
  · exact blames_misshapen hstart

theorem readTypedef_blames {taken : List Definition} {start : Nat} (hstart : P start)
    (htokens : LinesIn P tokens) : Blames P (readTypedef taken start tokens) := by
  unfold readTypedef
  split
  · have hname := htokens _ (List.mem_cons_of_mem _ List.mem_cons_self)
    exact (declare_blames hname).bind fun _ _ => blames_ok _
  · exact blames_misshapen hstart

theorem readBlockName_blames {kind : Kind} {taken : List Definition} {start : Nat}
    (hstart : P start) (htokens : LinesIn P tokens) :
    Blames P (readBlockName kind taken start tokens) := by
  unfold readBlockName
  split
  · exact (declare_blames (htokens _ List.mem_cons_self)).bind fun _ _ => blames_ok _
  · exact blames_misshapen hstart

theorem readBaseOf_blames {kind : Kind} {start : Nat} (hstart : P start)
    (htokens : LinesIn P tokens) : Blames P (readBaseOf kind start tokens) := by
  rw [readBaseOf]
  split
  · unfold readBase
    split
    · exact blames_ok _
    · next heat =>
      have hname := htokens.eat heat _ List.mem_cons_self
      exact (checkIdentifier_blames hname).bind fun _ _ => blames_ok _
    · exact blames_misshapen hstart
  · exact blames_ok _

theorem readBody_blames {kind : Kind} {base? : Option String} {block : Block}
    (htokens : LinesIn P block.tokens) (hlast : P block.last) :
    Blames P (readBody kind base? block) := by
  unfold readBody
  split
  · exact (readEnumValues_blames htokens).bind fun _ _ => blames_ok _
  · exact (readSenumValues_blames htokens).bind fun _ _ => blames_ok _
  · exact (readFields_blames htokens hlast).bind fun _ _ => blames_ok _
  · exact (readFunctions_blames htokens hlast).bind fun _ _ => blames_ok _
  · exact (readFields_blames htokens hlast).bind fun _ _ => blames_ok _

theorem readBlockDefinition_blames {kind : Kind} {taken : List Definition} {start : Nat}
    {lines : List Line} (hstart : P start) (htokens : LinesIn P tokens)
    (hlines : NumbersIn P lines) :
    Blames P (readBlockDefinition kind taken start tokens lines) := by
  rw [readBlockDefinition_eq]
  refine (readBlockName_blames hstart htokens).bind ?_
  rintro ⟨declared, afterName⟩ hname
  have hafterName : LinesIn P afterName := by
    obtain ⟨-, rfl⟩ := readBlockName_eq_ok hname
    exact htokens.of_suffix (List.suffix_cons _ _)
  refine (readBaseOf_blames hstart hafterName).bind ?_
  rintro ⟨base?, afterBase⟩ hbase
  have hafterBase := hafterName.of_suffix (readBaseOf_suffix hbase)
  refine (readBlock_blames hstart hafterBase hlines).bind ?_
  intro block hblock
  have hbody : Blames P (readBody kind base? block) :=
    readBody_blames (readBlock_lines hafterBase hlines hblock)
      (readBlock_last hafterBase hlines hblock)
  exact hbody.bind fun _ _ => blames_ok _

/-- A definition fails on its first word or on what it holds, if its line has a word to start
with. -/
theorem readDefinition_error {taken : List Definition} {line : Line} {lines : List Line}
    (hnumber : P line.number) (hlines : NumbersIn P lines) (htokens : line.tokens ≠ [])
    {violation : Violation} (h : readDefinition taken line lines = .error violation) :
    P violation.line ∧ (violation.rule.IsInner ∨
      ∃ token, line.tokens.head? = some token ∧
        violation = ⟨token.line, .unexpectedWord token.text⟩) := by
  have hline := linesIn_tokens hnumber
  have hinner : ∀ {result : Reading Extent}, Blames P result → result = .error violation →
      P violation.line ∧ (violation.rule.IsInner ∨
        ∃ token, line.tokens.head? = some token ∧
          violation = ⟨token.line, .unexpectedWord token.text⟩) :=
    fun hblames herror => ⟨(hblames violation herror).1, Or.inl (hblames violation herror).2⟩
  unfold readDefinition at h
  split at h
  · next hnone => exact absurd hnone htokens
  · next token rest heq =>
    rw [heq] at hline
    have hrest := hline.of_suffix (List.suffix_cons token rest)
    split at h
    · next word hword =>
      split at h
      · cases h
        refine ⟨hline token List.mem_cons_self, Or.inr ⟨token, by rw [heq, List.head?_cons], ?_⟩⟩
        rw [Token.text, hword, Lexeme.text]
      · exact hinner ((readConst_blames hnumber hrest).bind fun _ _ => blames_ok _) h
      · exact hinner ((readTypedef_blames hnumber hrest).bind fun _ _ => blames_ok _) h
      · exact hinner (readBlockDefinition_blames hnumber hrest hlines) h
    · cases h
      exact ⟨hline token List.mem_cons_self, Or.inr ⟨token, by rw [heq, List.head?_cons], rfl⟩⟩

/-- Definitions fail on the first word of one of them or on what it holds. -/
theorem readDefinitions_error {taken : List Definition} {lines : List Line}
    (hlines : NumbersIn P lines) (htokens : ∀ line ∈ lines, line.tokens ≠ [])
    {violation : Violation} (h : readDefinitions taken lines = .error violation) :
    P violation.line ∧
      (violation.rule.IsInner ∨ ∃ text, violation.rule = .unexpectedWord text) := by
  fun_induction readDefinitions taken lines with
  | case1 => cases h
  | case2 taken line rest ih =>
    rw [List.forall_mem_cons] at htokens
    cases hfirst : readDefinition taken line rest with
    | error other =>
      rw [hfirst] at h
      cases h
      obtain ⟨hline, hrule⟩ :=
        readDefinition_error (hlines line List.mem_cons_self) hlines.tail htokens.1 hfirst
      refine ⟨hline, hrule.imp_right ?_⟩
      rintro ⟨token, -, rfl⟩
      exact ⟨token.text, rfl⟩
    | ok extent =>
      rw [hfirst] at h
      apply ih extent _ _ h
      · exact fun other hother => hlines.tail other (List.mem_of_mem_drop hother)
      · exact fun other hother => htokens.2 other (List.mem_of_mem_drop hother)

end Grammar

end ThriftIdl

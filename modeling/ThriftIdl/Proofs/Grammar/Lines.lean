import ThriftIdl.Proofs.Grammar.Braces
import ThriftIdl.Proofs.Model.Records

/-!
Where the lines of definitions come from. All lines in what is read are lines of the tokens that it
is read from, in their order. So the lines of a definition do not decrease, and whatever holds of
the lines of the tokens holds of them.
-/

namespace ThriftIdl.Grammar

variable {P : Nat → Prop} {tokens rest : List Token}

/-- The property holds of the lines of the tokens. -/
def LinesIn (P : Nat → Prop) (tokens : List Token) : Prop := ∀ token ∈ tokens, P token.line

theorem LinesIn.of_suffix (h : LinesIn P tokens) (hrest : rest <:+ tokens) : LinesIn P rest :=
  fun token htoken => h token (hrest.subset htoken)

theorem LinesIn.skipSeparators (h : LinesIn P tokens) : LinesIn P (skipSeparators tokens) :=
  h.of_suffix (skipSeparators_suffix tokens)

theorem LinesIn.of_sublist {numbers : List Nat} (h : LinesIn P tokens)
    (hnumbers : numbers.Sublist (tokens.map (·.line))) : ∀ line ∈ numbers, P line :=
  fun line hline => List.forall_mem_map.2 h line (hnumbers.subset hline)

theorem LinesIn.head {line : Nat} {numbers : List Nat} (h : LinesIn P tokens)
    (hnumbers : (line :: numbers).Sublist (tokens.map (·.line))) : P line :=
  h.of_sublist hnumbers line List.mem_cons_self

theorem Leaves.suffix_tail {token : Token} (h : Leaves (token :: tokens) rest) :
    rest <:+ tokens := by
  rcases List.suffix_cons_iff.1 h.suffix with rfl | hrest
  · exact absurd h.length_lt (Nat.lt_irrefl _)
  · exact hrest

theorem map_line_sublist (h : rest <:+ tokens) :
    (rest.map (·.line)).Sublist (tokens.map (·.line)) :=
  h.sublist.map _

theorem skipped_sublist (hskip : skipSeparators tokens = rest) :
    (rest.map (·.line)).Sublist (tokens.map (·.line)) :=
  map_line_sublist (hskip ▸ skipSeparators_suffix tokens)

/-- An item stands before what it leaves, and so before what is left later. -/
theorem cons_line_sublist {line : Nat} {middle : List Token}
    (h : (line :: middle.map (·.line)).Sublist (tokens.map (·.line))) (hrest : rest <:+ middle) :
    (line :: rest.map (·.line)).Sublist (tokens.map (·.line)) :=
  ((map_line_sublist hrest).cons_cons line).trans h

/-- One step of a list: the item's lines stand between those taken before it and the rest. -/
theorem sublist_of_item {numbers taken item after before : List Nat}
    (h : numbers.Sublist (taken ++ item ++ after)) (hitem : (item ++ after).Sublist before) :
    numbers.Sublist (taken ++ before) := by
  rw [List.append_assoc] at h
  exact h.trans (hitem.append_left taken)

theorem expectWord_lines {construct : Construct} {what : Expectation} {last : Nat} {word : Word}
    (h : expectWord construct what last tokens = .ok (word, rest)) :
    (word.line :: rest.map (·.line)).Sublist (tokens.map (·.line)) := by
  unfold expectWord at h
  split at h
  · cases h
    exact List.Sublist.refl _
  · cases h
  · cases h

theorem readFieldId_lines {last : Nat} {id : Int16 × Nat}
    (h : readFieldId last tokens = .ok (id, rest)) :
    (id.2 :: rest.map (·.line)).Sublist (tokens.map (·.line)) := by
  obtain ⟨⟨word, middle⟩, hword, h⟩ := bind_eq_ok.1 h
  dsimp only at h
  split at h
  · cases h
  · split at h
    · next heat =>
      cases h
      exact cons_line_sublist (expectWord_lines hword) (eat_suffix heat)
    · cases h

/-- A field's line is that of its id, which stands before the rest of it. -/
theorem readField_lines {last : Nat} {field : Field}
    (h : readField last tokens = .ok (field, rest)) :
    (field.line :: rest.map (·.line)).Sublist (tokens.map (·.line)) := by
  obtain ⟨⟨⟨id, line⟩, afterId⟩, hid, h⟩ := bind_eq_ok.1 h
  obtain ⟨⟨_, afterType⟩, htype, h⟩ := bind_eq_ok.1 h
  obtain ⟨⟨_, afterName⟩, hname, h⟩ := bind_eq_ok.1 h
  obtain ⟨_, _, h⟩ := bind_eq_ok.1 h
  obtain ⟨_, hdefault, h⟩ := bind_eq_ok.1 h
  cases h
  have hafterName := (expectWord_leaves hname).suffix.trans (readFieldType_leaves htype).suffix
  exact cons_line_sublist (readFieldId_lines hid) ((readDefault_suffix hdefault).trans hafterName)

theorem readEntry_lines {bare : Bool} {last : Nat} {taken : List Field} {field : Field}
    (h : readEntry bare last taken tokens = .ok (field, rest)) :
    (field.line :: rest.map (·.line)).Sublist (tokens.map (·.line)) := by
  unfold readEntry at h
  split at h
  · obtain ⟨_, hword, h⟩ := bind_eq_ok.1 h
    cases h
    exact expectWord_lines hword
  · exact readField_lines h

theorem readFields_lines {last : Nat} {taken fields : List Field}
    (h : readFields last taken tokens = .ok fields) :
    (fields.map (·.line)).Sublist (taken.map (·.line) ++ tokens.map (·.line)) := by
  fun_induction readFields last taken tokens with
  | case1 =>
    cases h
    exact List.sublist_append_left _ _
  | case2 => cases h
  | case3 => cases h
  | case4 taken tokens token after hskip field remaining hread _ ih =>
    have htaken := ih h
    rw [List.map_append] at htaken
    exact sublist_of_item htaken ((readField_lines hread).trans (skipped_sublist hskip))

theorem readEntries_lines {bare : Bool} {last opened : Nat} {taken fields : List Field}
    (h : readEntries bare last opened taken tokens = .ok (fields, rest)) :
    (fields.map (·.line) ++ rest.map (·.line)).Sublist
      (taken.map (·.line) ++ tokens.map (·.line)) := by
  fun_induction readEntries bare last opened taken tokens with
  | case1 => cases h
  | case2 taken tokens token after hskip =>
    cases h
    exact ((map_line_sublist (List.suffix_cons _ _)).trans (skipped_sublist hskip)).append_left _
  | case3 => cases h
  | case4 => cases h
  | case5 taken tokens token after hskip _ field remaining hread _ ih =>
    have htaken := ih h
    rw [List.map_append] at htaken
    exact sublist_of_item htaken ((readEntry_lines hread).trans (skipped_sublist hskip))

theorem readParams_lines {last : Nat} {function : Word} {params : List Field}
    (h : readParams last function tokens = .ok (params, rest)) :
    (params.map (·.line) ++ rest.map (·.line)).Sublist (tokens.map (·.line)) := by
  unfold readParams at h
  split at h
  · cases h
  · next heat => exact (readEntries_lines h).trans (map_line_sublist (eat_suffix heat))

theorem readThrows_lines {last : Nat} {throws : List Field}
    (h : readThrows last tokens = .ok (throws, rest)) :
    (throws.map (·.line) ++ rest.map (·.line)).Sublist (tokens.map (·.line)) := by
  unfold readThrows at h
  split at h
  · next heat =>
    cases h
    exact map_line_sublist (eat_suffix heat)
  · next hword =>
    split at h
    · cases h
    · next hmark =>
      have hrest := (eat_suffix hmark).trans (eat_suffix hword)
      exact (readEntries_lines h).trans (map_line_sublist hrest)

/-- A function's line is that of its first token, which stands before its type at the latest. -/
theorem readFunction_lines {last : Nat} {token : Token} {function : Function}
    (h : readFunction last (token :: tokens) = .ok (function, rest)) :
    (function.lines ++ rest.map (·.line)).Sublist ((token :: tokens).map (·.line)) := by
  obtain ⟨⟨type, afterType⟩, htype, h⟩ := bind_eq_ok.1 h
  obtain ⟨⟨name, afterName⟩, hname, h⟩ := bind_eq_ok.1 h
  obtain ⟨_, _, h⟩ := bind_eq_ok.1 h
  obtain ⟨⟨params, afterParams⟩, hparams, h⟩ := bind_eq_ok.1 h
  obtain ⟨⟨throws, after⟩, hthrows, h⟩ := bind_eq_ok.1 h
  obtain ⟨_, _, h⟩ := bind_eq_ok.1 h
  cases h
  have hleaves : Leaves (token :: tokens) afterType :=
    (expectWord_leaves htype).after_suffix (eat_suffix rfl)
  have hafterType := hleaves.suffix_tail
  have hafterName := (expectWord_leaves hname).suffix.trans hafterType
  have hmembers : (params.map (·.line) ++ (throws.map (·.line) ++ rest.map (·.line))).Sublist
      (tokens.map (·.line)) :=
    (((readThrows_lines hthrows).append_left _).trans (readParams_lines hparams)).trans
      (map_line_sublist hafterName)
  rw [← List.append_assoc, ← List.map_append] at hmembers
  exact hmembers.cons_cons token.line

theorem readFunctions_lines {last : Nat} {taken functions : List Function}
    (h : readFunctions last taken tokens = .ok functions) :
    (functions.flatMap Function.lines).Sublist
      (taken.flatMap Function.lines ++ tokens.map (·.line)) := by
  fun_induction readFunctions last taken tokens with
  | case1 =>
    cases h
    exact List.sublist_append_left _ _
  | case2 => cases h
  | case3 => cases h
  | case4 taken tokens token after hskip function remaining hread _ ih =>
    have htaken := ih h
    rw [List.flatMap_append, List.flatMap_singleton] at htaken
    exact sublist_of_item htaken ((readFunction_lines hread).trans (skipped_sublist hskip))

theorem readEnumValue_lines {taken : List EnumValue} {name : Token} {value : EnumValue}
    (h : readEnumValue taken name tokens = .ok (value, rest)) :
    (value.line :: rest.map (·.line)).Sublist ((name :: tokens).map (·.line)) := by
  unfold readEnumValue at h
  split at h
  · obtain ⟨_, _, h⟩ := bind_eq_ok.1 h
    obtain ⟨⟨_, _⟩, hnumber, h⟩ := bind_eq_ok.1 h
    obtain ⟨_, _, h⟩ := bind_eq_ok.1 h
    cases h
    exact (map_line_sublist (readNumber_suffix hnumber)).cons_cons name.line
  · cases h

theorem readEnumValues_lines {taken values : List EnumValue}
    (h : readEnumValues taken tokens = .ok values) :
    (values.map (·.line)).Sublist (taken.map (·.line) ++ tokens.map (·.line)) := by
  fun_induction readEnumValues taken tokens with
  | case1 =>
    cases h
    exact List.sublist_append_left _ _
  | case2 taken token rest _ ih =>
    exact (ih h).trans ((map_line_sublist (List.suffix_cons token rest)).append_left _)
  | case3 => cases h
  | case4 taken token rest _ value after hread _ ih =>
    have htaken := ih h
    rw [List.map_append] at htaken
    exact sublist_of_item htaken (readEnumValue_lines hread)

/-- The lines of a body stand among those of its tokens, in their order. -/
theorem readBody_lines {kind : Kind} {base? : Option String} {block : Block} {body : Body}
    (h : readBody kind base? block = .ok body) :
    body.lines.Sublist (block.tokens.map (·.line)) := by
  unfold readBody at h
  split at h
  · obtain ⟨values, hvalues, h⟩ := bind_eq_ok.1 h
    cases h
    exact readEnumValues_lines hvalues
  · obtain ⟨values, _, h⟩ := bind_eq_ok.1 h
    cases h
    exact List.nil_sublist _
  · obtain ⟨fields, hfields, h⟩ := bind_eq_ok.1 h
    cases h
    exact readFields_lines hfields
  · obtain ⟨functions, hfunctions, h⟩ := bind_eq_ok.1 h
    cases h
    exact readFunctions_lines hfunctions
  · obtain ⟨fields, hfields, h⟩ := bind_eq_ok.1 h
    cases h
    exact readFields_lines hfields

theorem returnTypeOf_ne (word : String) : returnTypeOf word ≠ some voidWord := by
  rw [returnTypeOf]
  split
  · simp
  · next hvoid =>
    intro heq
    cases heq
    exact hvoid rfl

theorem readFunction_type {last : Nat} {function : Function}
    (h : readFunction last tokens = .ok (function, rest)) :
    function.returnType? ≠ some voidWord := by
  obtain ⟨⟨type, _⟩, _, h⟩ := bind_eq_ok.1 h
  obtain ⟨_, _, h⟩ := bind_eq_ok.1 h
  obtain ⟨_, _, h⟩ := bind_eq_ok.1 h
  obtain ⟨_, _, h⟩ := bind_eq_ok.1 h
  obtain ⟨_, _, h⟩ := bind_eq_ok.1 h
  obtain ⟨_, _, h⟩ := bind_eq_ok.1 h
  cases h
  exact returnTypeOf_ne type.text

theorem readFunctions_types {last : Nat} {taken functions : List Function}
    (htaken : ∀ function ∈ taken, function.returnType? ≠ some voidWord)
    (h : readFunctions last taken tokens = .ok functions) :
    ∀ function ∈ functions, function.returnType? ≠ some voidWord := by
  fun_induction readFunctions last taken tokens with
  | case1 =>
    cases h
    exact htaken
  | case2 => cases h
  | case3 => cases h
  | case4 taken tokens token after hskip function remaining hread _ ih =>
    refine ih ?_ h
    rw [List.forall_mem_append, List.forall_mem_singleton]
    exact ⟨htaken, readFunction_type hread⟩

theorem readBody_types {kind : Kind} {base? : Option String} {block : Block} {body : Body}
    (h : readBody kind base? block = .ok body) :
    ∀ function ∈ body.functions, function.returnType? ≠ some voidWord := by
  unfold readBody at h
  split at h
  · obtain ⟨_, _, h⟩ := bind_eq_ok.1 h
    cases h
    simp [Body.functions]
  · obtain ⟨_, _, h⟩ := bind_eq_ok.1 h
    cases h
    simp [Body.functions]
  · obtain ⟨_, _, h⟩ := bind_eq_ok.1 h
    cases h
    simp [Body.functions]
  · obtain ⟨functions, hfunctions, h⟩ := bind_eq_ok.1 h
    cases h
    exact readFunctions_types (by simp) hfunctions
  · obtain ⟨_, _, h⟩ := bind_eq_ok.1 h
    cases h
    simp [Body.functions]

/-- The property holds of the numbers of the lines. -/
def NumbersIn (P : Nat → Prop) (lines : List Line) : Prop := ∀ line ∈ lines, P line.number

theorem line_of_mem_tokens {line : Line} {token : Token} (h : token ∈ line.tokens) :
    token.line = line.number := by
  obtain ⟨lexeme, _, rfl⟩ := List.mem_map.1 h
  rfl

theorem linesIn_tokens {line : Line} (h : P line.number) : LinesIn P line.tokens := by
  intro token htoken
  rwa [line_of_mem_tokens htoken]

theorem NumbersIn.linesIn {lines : List Line} (h : NumbersIn P lines) :
    LinesIn P (lines.flatMap Line.tokens) := by
  intro token htoken
  obtain ⟨line, hline, htoken⟩ := List.mem_flatMap.1 htoken
  exact linesIn_tokens (h line hline) token htoken

/-- The tokens that a part adds to its block. -/
def BlockPart.inner : BlockPart → List Token
  | opened _ tokens => tokens
  | closed tokens _ _ => tokens

theorem prefix_blockPart (depth : Nat) (tokens : List Token) :
    (blockPart depth tokens).inner <+: tokens := by
  cases hpart : blockPart depth tokens with
  | opened inside inner =>
    obtain ⟨rfl, -, -⟩ := blockPart_eq_opened_iff.1 hpart
    exact List.prefix_rfl
  | closed inner last after =>
    obtain ⟨close, -, -, rfl⟩ := blockPart_eq_closed_iff.1 hpart
    exact List.prefix_append inner _

theorem inner_sublist {depth : Nat} {part : BlockPart} (hpart : blockPart depth tokens = part) :
    part.inner.Sublist tokens :=
  hpart ▸ (prefix_blockPart depth tokens).sublist

theorem closeBlock_sublist {kind : Kind} {start depth : Nat} {lines : List Line} {block : Block}
    (h : closeBlock kind start depth tokens lines = .ok block) :
    block.tokens.Sublist (tokens ++ (lines.take block.used).flatMap Line.tokens) := by
  induction lines generalizing depth tokens block with
  | nil =>
    rw [closeBlock] at h
    split at h
    · next hpart =>
      cases h
      exact (inner_sublist hpart).trans (List.sublist_append_left _ _)
    · cases h
    · cases h
  | cons line lines ih =>
    rw [closeBlock] at h
    split at h
    · next hpart =>
      cases h
      exact (inner_sublist hpart).trans (List.sublist_append_left _ _)
    · cases h
    · next hpart =>
      obtain ⟨more, hmore, h⟩ := bind_eq_ok.1 h
      cases h
      rw [List.take_succ_cons, List.flatMap_cons]
      exact (inner_sublist hpart).append (ih hmore)

theorem openBlock_sublist {kind : Kind} {start : Nat} {lines : List Line} {block : Block}
    (h : openBlock kind start tokens lines = .ok block) :
    block.tokens.Sublist (tokens ++ (lines.take block.used).flatMap Line.tokens) := by
  unfold openBlock at h
  split at h
  · cases h
  · split at h
    · exact (closeBlock_sublist h).cons _
    · cases h

/-- The tokens of a block stand among those left on the line of its definition and those of the
lines that it takes. -/
theorem readBlock_sublist {kind : Kind} {start : Nat} {lines : List Line} {block : Block}
    (h : readBlock kind start tokens lines = .ok block) :
    block.tokens.Sublist (tokens ++ (lines.take block.used).flatMap Line.tokens) := by
  unfold readBlock at h
  split at h
  · obtain ⟨inner, hinner, h⟩ := bind_eq_ok.1 h
    cases h
    rw [List.nil_append, List.take_succ_cons, List.flatMap_cons]
    exact openBlock_sublist hinner
  · exact openBlock_sublist h

theorem readBlock_lines {kind : Kind} {start : Nat} {lines : List Line} {block : Block}
    (htokens : LinesIn P tokens) (hlines : NumbersIn P lines)
    (h : readBlock kind start tokens lines = .ok block) : LinesIn P block.tokens := by
  have htaken : NumbersIn P (lines.take block.used) :=
    fun line hline => hlines line (List.mem_of_mem_take hline)
  have hall := List.forall_mem_append.2 ⟨htokens, htaken.linesIn⟩
  exact fun token htoken => hall token ((readBlock_sublist h).subset htoken)

theorem checkIdentifier_eq_ok_iff {word : Word} :
    checkIdentifier word = .ok () ↔ Identifier.isValid word.text = true := by
  rw [checkIdentifier]
  split
  · next hvalid => simp [hvalid]
  · next hvalid => simp [hvalid]

/-- A word declares a name exactly if it is an identifier that no definition before it has. The
name stands on the word's line. -/
theorem declare_eq_ok_iff {taken : List Definition} {word : Word} {declared : Declared} :
    declare taken word = .ok declared ↔ Identifier.isValid word.text = true ∧
      word.text ∉ taken.map (·.name) ∧ declared = ⟨word.text, word.line⟩ := by
  rw [declare, bind_eq_ok, ← Lookup.find?_eq_none_iff, Definition.lookup?]
  constructor
  · rintro ⟨_, hvalid, h⟩
    split at h
    · cases h
    · next hnone =>
      cases h
      exact ⟨checkIdentifier_eq_ok_iff.1 hvalid, hnone, rfl⟩
  · rintro ⟨hvalid, hnone, rfl⟩
    exact ⟨(), checkIdentifier_eq_ok_iff.2 hvalid, by rw [hnone]⟩

/-- The definition is new, and its name and lines stand among the tokens of its first line and
more tokens after these. No function of it names a type `void`. -/
structure Declares (taken : List Definition) (first more : List Token) (definition : Definition) :
    Prop where
  fresh : definition.name ∉ taken.map (·.name)
  name : ⟨.word definition.name, definition.line⟩ ∈ first
  lines : definition.lines.Sublist ((first ++ more).map (·.line))
  types : ∀ function ∈ definition.body.functions, function.returnType? ≠ some voidWord

theorem Declares.of_suffix {taken : List Definition} {first more : List Token}
    {definition : Definition} (h : Declares taken rest more definition) (hrest : rest <:+ first) :
    Declares taken first more definition where
  fresh := h.fresh
  name := hrest.subset h.name
  lines := h.lines.trans ((hrest.sublist.append_right more).map _)
  types := h.types

/-- A definition without members. -/
theorem declares_of_mem {taken : List Definition} {word : Word} {declared : Declared} {body : Body}
    (hword : ⟨.word word.text, word.line⟩ ∈ tokens) (hlines : body.lines = [])
    (hfunctions : body.functions = []) (h : declare taken word = .ok declared) :
    Declares taken tokens [] ⟨declared, body⟩ := by
  obtain ⟨-, hnew, rfl⟩ := declare_eq_ok_iff.1 h
  refine ⟨hnew, hword, ?_, by simp [hfunctions]⟩
  rw [Definition.lines, hlines, List.append_nil, List.singleton_sublist]
  exact List.mem_map_of_mem (f := (·.line)) hword

theorem readConst_declares {taken : List Definition} {start : Nat} {definition : Definition}
    (h : readConst taken start tokens = .ok definition) : Declares taken tokens [] definition := by
  simp only [readConst] at h
  split at h
  · split at h
    · obtain ⟨declared, hdeclared, h⟩ := bind_eq_ok.1 h
      cases h
      exact declares_of_mem (by simp) rfl rfl hdeclared
    · cases h
  · cases h

theorem readTypedef_declares {taken : List Definition} {start : Nat} {definition : Definition}
    (h : readTypedef taken start tokens = .ok definition) :
    Declares taken tokens [] definition := by
  unfold readTypedef at h
  split at h
  · obtain ⟨declared, hdeclared, h⟩ := bind_eq_ok.1 h
    cases h
    exact declares_of_mem (by simp) rfl rfl hdeclared
  · cases h

theorem readBlockName_eq_ok {kind : Kind} {taken : List Definition} {start : Nat}
    {declared : Declared} (h : readBlockName kind taken start tokens = .ok (declared, rest)) :
    declared.name ∉ taken.map (·.name) ∧ tokens = ⟨.word declared.name, declared.line⟩ :: rest := by
  unfold readBlockName at h
  split at h
  · obtain ⟨_, hdeclared, h⟩ := bind_eq_ok.1 h
    cases h
    obtain ⟨-, hnew, rfl⟩ := declare_eq_ok_iff.1 hdeclared
    exact ⟨hnew, rfl⟩
  · cases h

theorem readBase_suffix {start : Nat} {base? : Option String}
    (h : readBase start tokens = .ok (base?, rest)) : rest <:+ tokens := by
  unfold readBase at h
  split at h
  · next heat =>
    cases h
    exact eat_suffix heat
  · next heat =>
    obtain ⟨_, _, h⟩ := bind_eq_ok.1 h
    cases h
    exact (List.suffix_cons _ _).trans (eat_suffix heat)
  · cases h

theorem readBaseOf_suffix {kind : Kind} {start : Nat} {base? : Option String}
    (h : readBaseOf kind start tokens = .ok (base?, rest)) : rest <:+ tokens := by
  unfold readBaseOf at h
  split at h
  · exact readBase_suffix h
  · cases h
    exact List.suffix_rfl

theorem readBlockDefinition_declares {kind : Kind} {taken : List Definition} {start : Nat}
    {lines : List Line} {extent : Extent}
    (h : readBlockDefinition kind taken start tokens lines = .ok extent) :
    Declares taken tokens ((lines.take extent.used).flatMap Line.tokens) extent.definition := by
  obtain ⟨declared, afterName, base?, afterBase, block, body, hname, hbase, hblock, hbody, rfl⟩ :=
    readBlockDefinition_eq_ok.1 h
  obtain ⟨hnew, rfl⟩ := readBlockName_eq_ok hname
  have hblockTokens := (readBlock_sublist hblock).trans
    ((readBaseOf_suffix hbase).sublist.append_right _)
  have hbodyLines := (readBody_lines hbody).trans (hblockTokens.map (·.line))
  exact ⟨hnew, List.mem_cons_self, hbodyLines.cons_cons declared.line, readBody_types hbody⟩

/-- What is declared on a line stands on it and the lines that it takes. -/
theorem readDefinition_declares {taken : List Definition} {line : Line} {lines : List Line}
    {extent : Extent} (h : readDefinition taken line lines = .ok extent) :
    Declares taken line.tokens ((lines.take extent.used).flatMap Line.tokens)
      extent.definition := by
  unfold readDefinition at h
  split at h
  · cases h
  · next token rest heq =>
    have hrest : rest <:+ line.tokens := heq ▸ List.suffix_cons token rest
    split at h
    · split at h
      · cases h
      · obtain ⟨definition, hdefinition, h⟩ := bind_eq_ok.1 h
        cases h
        exact (readConst_declares hdefinition).of_suffix hrest
      · obtain ⟨definition, hdefinition, h⟩ := bind_eq_ok.1 h
        cases h
        exact (readTypedef_declares hdefinition).of_suffix hrest
      · exact (readBlockDefinition_declares h).of_suffix hrest
    · cases h

/-- The property holds of the definition's lines, and no function of it names a type `void`. -/
structure Kept (P : Nat → Prop) (definition : Definition) : Prop where
  line : P definition.line
  lines : ∀ line ∈ definition.body.lines, P line
  types : ∀ function ∈ definition.body.functions, function.returnType? ≠ some voidWord

theorem Declares.kept {taken : List Definition} {first more : List Token} {definition : Definition}
    (h : Declares taken first more definition) (hfirst : LinesIn P first)
    (hmore : LinesIn P more) : Kept P definition := by
  have htokens : LinesIn P (first ++ more) := List.forall_mem_append.2 ⟨hfirst, hmore⟩
  obtain ⟨hline, hlines⟩ := List.forall_mem_cons.1 (htokens.of_sublist h.lines)
  exact ⟨hline, hlines, h.types⟩

/-- Definitions that are read have names apart, and whatever holds of the numbers of the lines they
are read from holds of all lines in them. -/
theorem readDefinitions_kept {taken definitions : List Definition} {lines : List Line}
    (hnames : (taken.map (·.name)).Nodup) (htaken : ∀ definition ∈ taken, Kept P definition)
    (hlines : NumbersIn P lines) (h : readDefinitions taken lines = .ok definitions) :
    (definitions.map (·.name)).Nodup ∧ ∀ definition ∈ definitions, Kept P definition := by
  fun_induction readDefinitions taken lines with
  | case1 =>
    cases h
    exact ⟨hnames, htaken⟩
  | case2 taken line rest ih =>
    obtain ⟨extent, hextent, h⟩ := bind_eq_ok.1 h
    have hrest : NumbersIn P rest :=
      fun other hother => hlines other (List.mem_cons_of_mem line hother)
    have htakenLines : NumbersIn P (rest.take extent.used) :=
      fun other hother => hrest other (List.mem_of_mem_take hother)
    have hdeclares := readDefinition_declares hextent
    have hfirst := linesIn_tokens (hlines line List.mem_cons_self)
    apply ih extent _ _ _ h
    · rw [List.map_append, List.map_singleton]
      exact Lookup.nodup_append_singleton.2 ⟨hnames, hdeclares.fresh⟩
    · rw [List.forall_mem_append, List.forall_mem_singleton]
      exact ⟨htaken, hdeclares.kept hfirst htakenLines.linesIn⟩
    · intro other hother
      exact hrest other (List.mem_of_mem_drop hother)

end ThriftIdl.Grammar

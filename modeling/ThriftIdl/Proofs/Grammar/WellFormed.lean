import ThriftIdl.Proofs.Grammar.Lines

/-!
What the grammar accepts is well formed: the members of a body stand apart in all that must tell
them apart, and a oneway function does not answer. Each reader of members adds one that passed the
check against those before it, which is what one more member needs.
-/

namespace ThriftIdl

/-- No two fields of a list share an id or a name. -/
structure Field.Apart (fields : List Field) : Prop where
  ids : (fields.map (·.id)).Nodup
  names : (fields.map (·.name)).Nodup

/-- No two values of an enum share a name or a number. -/
structure EnumValue.Apart (values : List EnumValue) : Prop where
  names : (values.map (·.name)).Nodup
  numbers : (values.map (·.value)).Nodup

/-- The function's parameters and exceptions stand apart, and what it returns is in order. -/
structure Function.WellFormed (function : Function) : Prop where
  params : Field.Apart function.params
  throws : Field.Apart function.throws
  oneway : function.oneway = true → function.returnType? = none ∧ function.throws = []
  returnType : function.returnType? ≠ some voidWord

/-- The members of the body stand apart, and its functions are well formed. -/
def Body.WellFormed : Body → Prop
  | const .. => True
  | typedef .. => True
  | enum values => EnumValue.Apart values
  | senum values => values.Nodup
  | struct fields => Field.Apart fields
  | exception fields => Field.Apart fields
  | service _ functions =>
    (functions.map (·.name)).Nodup ∧ ∀ function ∈ functions, function.WellFormed

/-- The definition's name is an identifier and its body is well formed. -/
structure Definition.WellFormed (definition : Definition) : Prop where
  name : Identifier.isValid definition.name = true
  body : definition.body.WellFormed

theorem Field.apart_iff {fields : List Field} :
    Field.Apart fields ↔ (fields.map (·.id)).Nodup ∧ (fields.map (·.name)).Nodup :=
  ⟨fun h => ⟨h.ids, h.names⟩, fun h => ⟨h.1, h.2⟩⟩

theorem EnumValue.apart_iff {values : List EnumValue} :
    EnumValue.Apart values ↔ (values.map (·.name)).Nodup ∧ (values.map (·.value)).Nodup :=
  ⟨fun h => ⟨h.names, h.numbers⟩, fun h => ⟨h.1, h.2⟩⟩

theorem Function.wellFormed_iff {function : Function} :
    function.WellFormed ↔ Field.Apart function.params ∧ Field.Apart function.throws ∧
      (function.oneway = true → function.returnType? = none ∧ function.throws = []) ∧
      function.returnType? ≠ some voidWord :=
  ⟨fun h => ⟨h.params, h.throws, h.oneway, h.returnType⟩, fun h => ⟨h.1, h.2.1, h.2.2.1, h.2.2.2⟩⟩

instance (fields : List Field) : Decidable (Field.Apart fields) :=
  decidable_of_iff _ Field.apart_iff.symm

instance (values : List EnumValue) : Decidable (EnumValue.Apart values) :=
  decidable_of_iff _ EnumValue.apart_iff.symm

instance (function : Function) : Decidable function.WellFormed :=
  decidable_of_iff _ Function.wellFormed_iff.symm

instance (body : Body) : Decidable body.WellFormed :=
  match body with
  | .const .. => .isTrue trivial
  | .typedef .. => .isTrue trivial
  | .enum values => inferInstanceAs (Decidable (EnumValue.Apart values))
  | .senum values => inferInstanceAs (Decidable values.Nodup)
  | .struct fields => inferInstanceAs (Decidable (Field.Apart fields))
  | .exception fields => inferInstanceAs (Decidable (Field.Apart fields))
  | .service _ functions => inferInstanceAs (Decidable ((functions.map (·.name)).Nodup ∧
      ∀ function ∈ functions, function.WellFormed))

instance (definition : Definition) : Decidable definition.WellFormed :=
  decidable_of_iff (Identifier.isValid definition.name = true ∧ definition.body.WellFormed)
    ⟨fun h => ⟨h.1, h.2⟩, fun h => ⟨h.name, h.body⟩⟩

namespace Grammar

variable {tokens rest : List Token}

theorem checkNew_eq_ok_iff {taken : List Field} {field : Field} :
    checkNew taken field = .ok () ↔
      field.id ∉ taken.map (·.id) ∧ field.name ∉ taken.map (·.name) := by
  rw [checkNew, ← Lookup.find?_eq_none_iff, ← Lookup.find?_eq_none_iff]
  split
  · next hid => simp [hid]
  · next hid =>
    split
    · next hname => simp [hname]
    · next hname => simp [hid, hname]

theorem checkNewValue_eq_ok_iff {taken : List EnumValue} {value : EnumValue} :
    checkNewValue taken value = .ok () ↔
      value.name ∉ taken.map (·.name) ∧ value.value ∉ taken.map (·.value) := by
  rw [← Lookup.find?_eq_none_iff, ← Lookup.find?_eq_none_iff, checkNewValue]
  split
  · next hname => simp [hname]
  · next hname =>
    split
    · next hvalue => simp [hvalue]
    · next hvalue => simp [hname, hvalue]

theorem checkNewFunction_eq_ok_iff {taken : List Function} {function : Function} :
    checkNewFunction taken function = .ok () ↔ function.name ∉ taken.map (·.name) := by
  rw [← Lookup.find?_eq_none_iff, checkNewFunction]
  split
  · next hname => simp [hname]
  · next hname => simp [hname]

theorem checkOneway_eq_ok_iff {function : Function} :
    checkOneway function = .ok () ↔
      (function.oneway = true → function.returnType? = none ∧ function.throws = []) := by
  rw [checkOneway, misshapen]
  split
  · next hanswers =>
    simp only [reduceCtorEq, false_iff]
    intro hnone
    simp only [Bool.and_eq_true, Bool.or_eq_true] at hanswers
    obtain ⟨hreturn, hthrows⟩ := hnone hanswers.1
    simp [hreturn, hthrows] at hanswers
  · next hanswers =>
    simp only [true_iff]
    intro honeway
    simpa [honeway] using hanswers

/-- Fields stand apart with one more exactly if it passes the check against them. -/
theorem apart_append_singleton_iff {fields : List Field} {field : Field} :
    Field.Apart (fields ++ [field]) ↔ Field.Apart fields ∧ checkNew fields field = .ok () := by
  rw [Field.apart_iff, Field.apart_iff, checkNew_eq_ok_iff, Lookup.nodup_map_append_singleton,
    Lookup.nodup_map_append_singleton]
  exact and_and_and_comm

/-- Values stand apart with one more exactly if it passes the check against them. -/
theorem apart_append_singleton_value_iff {values : List EnumValue} {value : EnumValue} :
    EnumValue.Apart (values ++ [value]) ↔
      EnumValue.Apart values ∧ checkNewValue values value = .ok () := by
  rw [EnumValue.apart_iff, EnumValue.apart_iff, checkNewValue_eq_ok_iff,
    Lookup.nodup_map_append_singleton, Lookup.nodup_map_append_singleton]
  exact and_and_and_comm

/-- A value among values that stand apart passes the check against those before it. -/
theorem checkNewValue_of_apart {before after : List EnumValue} {value : EnumValue}
    (h : EnumValue.Apart (before ++ value :: after)) : checkNewValue before value = .ok () := by
  have hinitial : before ++ [value] <+: before ++ value :: after := ⟨after, by simp⟩
  have hfirst : EnumValue.Apart (before ++ [value]) :=
    ⟨h.names.sublist (hinitial.sublist.map _), h.numbers.sublist (hinitial.sublist.map _)⟩
  exact (apart_append_singleton_value_iff.1 hfirst).2

theorem apart_nil : Field.Apart [] := ⟨by simp, by simp⟩

theorem readFields_apart {last : Nat} {taken fields : List Field} (htaken : Field.Apart taken)
    (h : readFields last taken tokens = .ok fields) : Field.Apart fields := by
  fun_induction readFields last taken tokens with
  | case1 =>
    cases h
    exact htaken
  | case2 => cases h
  | case3 => cases h
  | case4 taken tokens token after hskip field remaining hread hnew ih =>
    exact ih (apart_append_singleton_iff.2 ⟨htaken, hnew⟩) h

theorem readEntries_apart {bare : Bool} {last opened : Nat} {taken fields : List Field}
    (htaken : Field.Apart taken)
    (h : readEntries bare last opened taken tokens = .ok (fields, rest)) : Field.Apart fields := by
  fun_induction readEntries bare last opened taken tokens with
  | case1 => cases h
  | case2 =>
    cases h
    exact htaken
  | case3 => cases h
  | case4 => cases h
  | case5 taken tokens token after hskip hclose field remaining hread hnew ih =>
    exact ih (apart_append_singleton_iff.2 ⟨htaken, hnew⟩) h

theorem readParams_apart {last : Nat} {function : Word} {params : List Field}
    (h : readParams last function tokens = .ok (params, rest)) : Field.Apart params := by
  unfold readParams at h
  split at h
  · cases h
  · exact readEntries_apart apart_nil h

theorem readThrows_apart {last : Nat} {throws : List Field}
    (h : readThrows last tokens = .ok (throws, rest)) : Field.Apart throws := by
  unfold readThrows at h
  split at h
  · cases h
    exact apart_nil
  · split at h
    · cases h
    · exact readEntries_apart apart_nil h

theorem readFunction_wellFormed {last : Nat} {function : Function}
    (h : readFunction last tokens = .ok (function, rest)) : function.WellFormed := by
  obtain ⟨⟨type, afterType⟩, -, h⟩ := bind_eq_ok.1 h
  obtain ⟨⟨name, afterName⟩, -, h⟩ := bind_eq_ok.1 h
  obtain ⟨_, -, h⟩ := bind_eq_ok.1 h
  obtain ⟨⟨params, afterParams⟩, hparams, h⟩ := bind_eq_ok.1 h
  obtain ⟨⟨throws, after⟩, hthrows, h⟩ := bind_eq_ok.1 h
  obtain ⟨_, honeway, h⟩ := bind_eq_ok.1 h
  cases h
  exact ⟨readParams_apart hparams, readThrows_apart hthrows, checkOneway_eq_ok_iff.1 honeway,
    returnTypeOf_ne type.text⟩

theorem readFunctions_wellFormed {last : Nat} {taken functions : List Function}
    (hnames : (taken.map (·.name)).Nodup) (htaken : ∀ function ∈ taken, function.WellFormed)
    (h : readFunctions last taken tokens = .ok functions) :
    (functions.map (·.name)).Nodup ∧ ∀ function ∈ functions, function.WellFormed := by
  fun_induction readFunctions last taken tokens with
  | case1 =>
    cases h
    exact ⟨hnames, htaken⟩
  | case2 => cases h
  | case3 => cases h
  | case4 taken tokens token after hskip function remaining hread hnew ih =>
    apply ih _ _ h
    · exact Lookup.nodup_map_append_singleton.2 ⟨hnames, checkNewFunction_eq_ok_iff.1 hnew⟩
    · rw [List.forall_mem_append, List.forall_mem_singleton]
      exact ⟨htaken, readFunction_wellFormed hread⟩

theorem readEnumValue_checked {taken : List EnumValue} {name : Token} {value : EnumValue}
    (h : readEnumValue taken name tokens = .ok (value, rest)) :
    checkNewValue taken value = .ok () := by
  unfold readEnumValue at h
  split at h
  · obtain ⟨_, -, h⟩ := bind_eq_ok.1 h
    obtain ⟨⟨_, _⟩, -, h⟩ := bind_eq_ok.1 h
    obtain ⟨_, hnew, h⟩ := bind_eq_ok.1 h
    cases h
    exact hnew
  · cases h

theorem readEnumValues_apart {taken values : List EnumValue} (htaken : EnumValue.Apart taken)
    (h : readEnumValues taken tokens = .ok values) : EnumValue.Apart values := by
  fun_induction readEnumValues taken tokens with
  | case1 =>
    cases h
    exact htaken
  | case2 taken token rest _ ih => exact ih htaken h
  | case3 => cases h
  | case4 taken token rest _ value after hread _ ih =>
    exact ih (apart_append_singleton_value_iff.2 ⟨htaken, readEnumValue_checked hread⟩) h

/-- The token is a literal, and the value is the text and the line that a senum takes from it. -/
def Quotes (token : Token) (value : Quoted) : Prop :=
  ∃ text, token.lexeme = .literal text ∧
    value = ⟨String.ofList (unquote text.toList), token.line⟩

theorem quotes_iff_of_literal {token : Token} {value : Quoted} {text : String}
    (h : token.lexeme = .literal text) :
    Quotes token value ↔ value = ⟨String.ofList (unquote text.toList), token.line⟩ := by
  simp [Quotes, h]

/-- The tokens of a senum are literals and separators, and no two literals give the same text. -/
theorem readSenumValues_eq_ok_iff {taken values : List Quoted} (htaken : (taken.map (·.text)).Nodup) :
    readSenumValues taken tokens = .ok values ↔
      ∃ more, List.Forall₂ Quotes (tokens.filter (!·.isSeparator)) more ∧ values = taken ++ more ∧
        (values.map (·.text)).Nodup := by
  fun_induction readSenumValues taken tokens with
  | case1 taken =>
    constructor
    · intro h
      cases h
      exact ⟨[], .nil, (List.append_nil _).symm, htaken⟩
    · rintro ⟨more, hmore, rfl, -⟩
      cases hmore
      rw [List.append_nil]
  | case2 taken token rest hseparator ih =>
    rw [ih htaken, List.filter_cons_of_neg (by simp [hseparator])]
  | case3 taken token rest hseparator text hlexeme value earlier hearlier =>
    refine iff_of_false (by simp) ?_
    rintro ⟨more, hmore, rfl, hnodup⟩
    rw [List.filter_cons_of_pos (by simpa using hseparator)] at hmore
    cases hmore with
    | @cons _ first _ more hfirst hmore =>
      obtain rfl := (quotes_iff_of_literal hlexeme).1 hfirst
      obtain ⟨hmem, hname⟩ := Lookup.mem_of_find? hearlier
      rw [List.append_cons, List.map_append, List.nodup_append, Lookup.nodup_map_append_singleton]
        at hnodup
      exact hnodup.1.2 (List.mem_map.2 ⟨earlier, hmem, hname⟩)
  | case4 taken token rest hseparator text hlexeme value hnone ih =>
    have hnew := Lookup.find?_eq_none_iff.1 hnone
    rw [ih (Lookup.nodup_map_append_singleton.2 ⟨htaken, hnew⟩),
      List.filter_cons_of_pos (by simpa using hseparator)]
    constructor
    · rintro ⟨more, hmore, rfl, hnodup⟩
      exact ⟨_ :: more, .cons ((quotes_iff_of_literal hlexeme).2 rfl) hmore, List.append_assoc ..,
        hnodup⟩
    · rintro ⟨more, hmore, rfl, hnodup⟩
      cases hmore with
      | @cons _ first _ more hfirst hmore =>
        obtain rfl := (quotes_iff_of_literal hlexeme).1 hfirst
        exact ⟨more, hmore, List.append_cons .., hnodup⟩
  | case5 taken token rest hseparator hother =>
    refine iff_of_false (by simp [misshapen]) ?_
    rintro ⟨more, hmore, -, -⟩
    rw [List.filter_cons_of_pos (by simpa using hseparator)] at hmore
    cases hmore with
    | cons hfirst hmore =>
      obtain ⟨text, htext, -⟩ := hfirst
      exact hother text htext

theorem readBody_senum_eq_ok_iff {base? : Option String} {block : Block} {body : Body} :
    readBody .senum base? block = .ok body ↔
      ∃ values, List.Forall₂ Quotes (block.tokens.filter (!·.isSeparator)) values ∧
        (values.map (·.text)).Nodup ∧ body = .senum (values.map (·.text)) := by
  rw [readBody, bind_eq_ok]
  constructor
  · rintro ⟨values, hvalues, h⟩
    obtain ⟨_, hmore, rfl, hnodup⟩ := (readSenumValues_eq_ok_iff (by simp)).1 hvalues
    exact ⟨_, hmore, hnodup, (Except.ok.inj h).symm⟩
  · rintro ⟨values, hvalues, hnodup, rfl⟩
    exact ⟨values, (readSenumValues_eq_ok_iff (by simp)).2 ⟨values, hvalues, rfl, hnodup⟩, rfl⟩

/-- Whatever tokens a block holds, a body that is read from them is well formed. -/
theorem readBody_wellFormed {kind : Kind} {base? : Option String} {block : Block} {body : Body}
    (h : readBody kind base? block = .ok body) : body.WellFormed := by
  unfold readBody at h
  split at h
  · obtain ⟨values, hvalues, h⟩ := bind_eq_ok.1 h
    cases h
    exact readEnumValues_apart ⟨by simp, by simp⟩ hvalues
  · obtain ⟨values, hvalues, h⟩ := bind_eq_ok.1 h
    cases h
    obtain ⟨_, -, -, hnodup⟩ := (readSenumValues_eq_ok_iff (by simp)).1 hvalues
    exact hnodup
  · obtain ⟨fields, hfields, h⟩ := bind_eq_ok.1 h
    cases h
    exact readFields_apart apart_nil hfields
  · obtain ⟨functions, hfunctions, h⟩ := bind_eq_ok.1 h
    cases h
    exact readFunctions_wellFormed (by simp) (by simp) hfunctions
  · obtain ⟨fields, hfields, h⟩ := bind_eq_ok.1 h
    cases h
    exact readFields_apart apart_nil hfields

theorem readConst_wellFormed {taken : List Definition} {start : Nat} {definition : Definition}
    (h : readConst taken start tokens = .ok definition) : definition.WellFormed := by
  simp only [readConst] at h
  split at h
  · split at h
    · obtain ⟨declared, hdeclared, h⟩ := bind_eq_ok.1 h
      cases h
      obtain ⟨hvalid, -, rfl⟩ := declare_eq_ok_iff.1 hdeclared
      exact ⟨hvalid, trivial⟩
    · cases h
  · cases h

theorem readTypedef_wellFormed {taken : List Definition} {start : Nat} {definition : Definition}
    (h : readTypedef taken start tokens = .ok definition) : definition.WellFormed := by
  unfold readTypedef at h
  split at h
  · obtain ⟨declared, hdeclared, h⟩ := bind_eq_ok.1 h
    cases h
    obtain ⟨hvalid, -, rfl⟩ := declare_eq_ok_iff.1 hdeclared
    exact ⟨hvalid, trivial⟩
  · cases h

theorem readBlockName_valid {kind : Kind} {taken : List Definition} {start : Nat}
    {declared : Declared} (h : readBlockName kind taken start tokens = .ok (declared, rest)) :
    Identifier.isValid declared.name = true := by
  unfold readBlockName at h
  split at h
  · obtain ⟨_, hdeclared, h⟩ := bind_eq_ok.1 h
    cases h
    obtain ⟨hvalid, -, rfl⟩ := declare_eq_ok_iff.1 hdeclared
    exact hvalid
  · cases h

theorem readBlockDefinition_wellFormed {kind : Kind} {taken : List Definition} {start : Nat}
    {lines : List Line} {extent : Extent}
    (h : readBlockDefinition kind taken start tokens lines = .ok extent) :
    extent.definition.WellFormed := by
  obtain ⟨declared, afterName, base?, afterBase, block, body, hname, -, -, hbody, rfl⟩ :=
    readBlockDefinition_eq_ok.1 h
  exact ⟨readBlockName_valid hname, readBody_wellFormed hbody⟩

theorem readDefinition_wellFormed {taken : List Definition} {line : Line} {lines : List Line}
    {extent : Extent} (h : readDefinition taken line lines = .ok extent) :
    extent.definition.WellFormed := by
  unfold readDefinition at h
  split at h
  · cases h
  · split at h
    · split at h
      · cases h
      · obtain ⟨definition, hdefinition, h⟩ := bind_eq_ok.1 h
        cases h
        exact readConst_wellFormed hdefinition
      · obtain ⟨definition, hdefinition, h⟩ := bind_eq_ok.1 h
        cases h
        exact readTypedef_wellFormed hdefinition
      · exact readBlockDefinition_wellFormed h
    · cases h

/-- What holds of every definition that is read from a line holds of all that are read. -/
theorem forall_mem_of_readDefinitions {P : Definition → Prop}
    (hread : ∀ {taken line lines extent}, readDefinition taken line lines = .ok extent →
      P extent.definition)
    {taken definitions : List Definition} {lines : List Line}
    (htaken : ∀ definition ∈ taken, P definition)
    (h : readDefinitions taken lines = .ok definitions) :
    ∀ definition ∈ definitions, P definition := by
  fun_induction readDefinitions taken lines with
  | case1 =>
    cases h
    exact htaken
  | case2 taken line rest ih =>
    obtain ⟨extent, hextent, h⟩ := bind_eq_ok.1 h
    apply ih extent _ h
    rw [List.forall_mem_append, List.forall_mem_singleton]
    exact ⟨htaken, hread hextent⟩

theorem readDefinitions_wellFormed {taken definitions : List Definition} {lines : List Line}
    (htaken : ∀ definition ∈ taken, definition.WellFormed)
    (h : readDefinitions taken lines = .ok definitions) :
    ∀ definition ∈ definitions, definition.WellFormed :=
  forall_mem_of_readDefinitions readDefinition_wellFormed htaken h

end Grammar

end ThriftIdl

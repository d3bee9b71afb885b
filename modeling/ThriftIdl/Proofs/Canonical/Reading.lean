import ThriftIdl.Proofs.Canonical.Members
import ThriftIdl.Proofs.Header

/-!
The canonical text of definitions is read to those definitions. A block takes the lines of its
members because no brace stands in them, and no definition's first line is a directive.
-/

namespace ThriftIdl

namespace Canonical

open Grammar

/-- The piece is no brace. -/
def Piece.isPlain : Piece → Bool
  | lexeme (.mark c) => c != '{' && c != '}'
  | _ => true

theorem isPlain_valuePiece (value : String) : (valuePiece value).isPlain = true := by
  rw [valuePiece]
  split
  · rfl
  · rfl

theorem isPlain_fieldPieces (field : Field) : (fieldPieces field).all Piece.isPlain = true := by
  have hrequiredness : (requirednessPieces field.requiredness).all Piece.isPlain = true := by
    cases field.requiredness with
    | _ => rfl
  have hdefault : (defaultPieces field.default?).all Piece.isPlain = true := by
    cases field.default? with
    | none => rfl
    | some value =>
      rw [defaultPieces, List.all_cons, List.all_cons, List.all_cons, List.all_cons,
        isPlain_valuePiece]
      rfl
  simp [fieldPieces, List.all_append, hrequiredness, hdefault, Piece.isPlain, Piece.mark,
    Piece.word]

theorem isPlain_listPieces (fields : List Field) :
    (listPieces fields).all Piece.isPlain = true := by
  have hfurther : ∀ fields, (furtherPieces fields).all Piece.isPlain = true := by
    intro fields
    rw [furtherPieces, List.all_flatMap, List.all_eq_true]
    intro field _
    rw [List.all_append, isPlain_fieldPieces]
    rfl
  have hseparated : (separatedPieces fields).all Piece.isPlain = true := by
    cases fields with
    | nil => rfl
    | cons field fields => rw [separatedPieces, List.all_append, isPlain_fieldPieces, hfurther]; rfl
  rw [listPieces, List.all_cons, List.all_append, hseparated]
  rfl

theorem isPlain_functionPieces (function : Function) :
    (functionPieces function).all Piece.isPlain = true := by
  have hthrows : (throwsPieces function.throws).all Piece.isPlain = true := by
    cases function.throws with
    | nil => rfl
    | cons field fields => rw [throwsPieces, List.all_append, isPlain_listPieces]; rfl
  have honeway : (if function.oneway then [.word "oneway", .gap] else [] : List Piece).all
      Piece.isPlain = true := by
    split
    · rfl
    · rfl
  rw [functionPieces, List.all_append, List.all_append, List.all_append, honeway,
    isPlain_listPieces, hthrows]
  rfl

theorem isPlain_enumValuePieces (value : EnumValue) :
    (enumValuePieces value).all Piece.isPlain = true := by
  rw [enumValuePieces]
  split
  · rfl
  · rfl

/-- No brace stands in the line of a member. -/
theorem isPlain_memberLines (body : Body) :
    ∀ line ∈ memberLines body, line.all Piece.isPlain = true := by
  have hmap : ∀ {α : Type} (pieces : α → List Piece) (members : List α),
      (∀ member, (pieces member).all Piece.isPlain = true) →
      ∀ line ∈ members.map pieces, line.all Piece.isPlain = true := by
    intro α pieces members hpieces line hline
    obtain ⟨member, -, rfl⟩ := List.mem_map.1 hline
    exact hpieces member
  cases body with
  | const type value => simp [memberLines]
  | typedef type => simp [memberLines]
  | enum values => exact hmap _ _ isPlain_enumValuePieces
  | senum values => exact hmap _ _ fun _ => rfl
  | struct fields => exact hmap _ _ isPlain_fieldPieces
  | exception fields => exact hmap _ _ isPlain_fieldPieces
  | service base? functions => exact hmap _ _ isPlain_functionPieces

theorem blockPart_tokensAt {line : List Piece} (h : line.all Piece.isPlain = true) :
    blockPart 0 (tokensAt 0 line) = .opened 0 (tokensAt 0 line) := by
  apply blockPart_of_plain
  intro token htoken
  obtain ⟨lexeme, hlexeme, rfl⟩ := List.mem_map.1 htoken
  obtain ⟨piece, hpiece, hlexeme⟩ := List.mem_filterMap.1 hlexeme
  have hplain := List.all_eq_true.1 h piece hpiece
  rcases piece with lexeme | _
  · cases hlexeme
    constructor
    · rintro rfl
      simp [Piece.isPlain] at hplain
    · rintro rfl
      simp [Piece.isPlain] at hplain
  · cases hlexeme

/-- The tokens of lines, one after the other. -/
def blockTokens (lines : List (List Piece)) : List Token := lines.flatMap (tokensAt 0)

/-- An open block takes the lines of its members and the line that closes it. -/
theorem closeBlock_lines (kind : Kind) {first : List Piece} {lines : List (List Piece)}
    (hfirst : first.all Piece.isPlain = true) (htidy : ∀ line ∈ lines, Tidy line)
    (hplain : ∀ line ∈ lines, line.all Piece.isPlain = true) (rest : List Line) :
    closeBlock kind 0 0 (tokensAt 0 first)
        (lines.map (lineAt 0) ++ lineAt 0 [.mark '}'] :: rest) =
      .ok ⟨tokensAt 0 first ++ blockTokens lines, 0, lines.length + 1⟩ := by
  induction lines generalizing first with
  | nil =>
    rw [closeBlock, blockPart_tokensAt hfirst]
    simp only [List.map_nil, List.nil_append]
    rw [tidy_close.tokens, closeBlock]
    rfl
  | cons line lines ih =>
    rw [List.forall_mem_cons] at htidy hplain
    have hrest := ih hplain.1 htidy.2 hplain.2
    rw [closeBlock, blockPart_tokensAt hfirst]
    simp only [List.map_cons, List.cons_append]
    rw [htidy.1.tokens, hrest]
    rfl

/-- The base of a body: only services have one. -/
def baseOf : Body → Option String
  | .service base? _ => base?
  | _ => none

theorem blockTokens_map {α : Type} (pieces : α → List Piece) (members : List α) :
    blockTokens (members.map pieces) = memberTokens pieces members :=
  List.flatMap_map ..

/-- The members of a body are read back from their lines. -/
theorem readBody_blockTokens {body : Body} (h : PrintsBody body) (hformed : body.WellFormed)
    (hkind : body.kind ≠ .const ∧ body.kind ≠ .typedef) (used : Nat) :
    readBody body.kind (baseOf body) ⟨blockTokens (memberLines body), 0, used⟩ =
      .ok (body.renumber onto0) := by
  cases body with
  | const type value => exact absurd rfl hkind.1
  | typedef type => exact absurd rfl hkind.2
  | enum values =>
    have hread := @readEnumValues_memberTokens [] values h.1 h.2 hformed
    rw [memberLines, blockTokens_map]
    simp only [Body.kind, readBody, bind, Except.bind]
    rw [List.map_nil] at hread
    rw [hread]
    rfl
  | senum values =>
    have hread := @readSenumValues_memberTokens [] values hformed
    rw [memberLines, blockTokens_map]
    simp only [Body.kind, readBody, bind, Except.bind]
    rw [List.map_nil] at hread
    rw [hread]
    simp only [List.nil_append, List.map_map]
    exact congrArg (fun texts => Except.ok (Body.senum texts)) (List.map_id values)
  | struct fields =>
    have hread := @readFields_memberTokens [] fields h hformed 0
    rw [memberLines, blockTokens_map]
    simp only [Body.kind, readBody, bind, Except.bind]
    rw [List.map_nil] at hread
    rw [hread]
    rfl
  | exception fields =>
    have hread := @readFields_memberTokens [] fields h hformed 0
    rw [memberLines, blockTokens_map]
    simp only [Body.kind, readBody, bind, Except.bind]
    rw [List.map_nil] at hread
    rw [hread]
    rfl
  | service base? functions =>
    have hread := @readFunctions_memberTokens [] functions h.2 hformed.2 hformed.1 0
    rw [memberLines, blockTokens_map]
    simp only [Body.kind, readBody, bind, Except.bind]
    rw [List.map_nil] at hread
    rw [hread]
    rfl

theorem readBaseOf_basePieces {body : Body} (h : PrintsBody body) :
    readBaseOf body.kind 0 (tokensAt 0 (basePieces body) ++ [⟨.mark '{', 0⟩]) =
      .ok (baseOf body, [⟨.mark '{', 0⟩]) := by
  cases body with
  | service base? functions =>
    cases base? with
    | none => rfl
    | some base =>
      have hbase : checkIdentifier ⟨base, 0⟩ = .ok () := checkIdentifier_eq_ok_iff.2 (h.1 base rfl)
      change (checkIdentifier ⟨base, 0⟩ >>= fun _ => _) = _
      rw [hbase]
      rfl
  | _ => rfl

theorem declare_of_not_mem {taken : List Definition} {name : String}
    (hname : Identifier.isValid name = true) (hnew : name ∉ taken.map (·.name)) :
    declare taken ⟨name, 0⟩ = .ok ⟨name, 0⟩ :=
  declare_eq_ok_iff.2 ⟨hname, hnew, rfl⟩

/-- A body that takes further lines opens its block at the end of its first. -/
theorem firstLine_of_block {definition : Definition}
    (hkind : definition.body.kind ≠ .const ∧ definition.body.kind ≠ .typedef) :
    tokensAt 0 (firstLine definition) =
        ⟨.word definition.kind.word, 0⟩ :: ⟨.word definition.name, 0⟩ ::
          (tokensAt 0 (basePieces definition.body) ++ [⟨.mark '{', 0⟩]) ∧
      furtherLines definition.body = memberLines definition.body ++ [[.mark '}']] := by
  rw [firstLine]
  cases hbody : definition.body with
  | const type value => exact absurd (by rw [hbody]; rfl) hkind.1
  | typedef type => exact absurd (by rw [hbody]; rfl) hkind.2
  | _ => exact ⟨by simp [typePieces, tailPieces, tokensAt_append], rfl⟩

/-- A definition with a block is read back from its lines. -/
theorem readBlockDefinition_furtherLines {taken : List Definition} {definition : Definition}
    (hnew : definition.name ∉ taken.map (·.name)) (hformed : definition.WellFormed)
    (h : PrintsBody definition.body)
    (hkind : definition.body.kind ≠ .const ∧ definition.body.kind ≠ .typedef)
    (rest : List Line) :
    readBlockDefinition definition.kind taken 0
        (⟨.word definition.name, 0⟩ ::
          (tokensAt 0 (basePieces definition.body) ++ [⟨.mark '{', 0⟩]))
        ((furtherLines definition.body).map (lineAt 0) ++ rest) =
      .ok ⟨definition.renumber onto0, (furtherLines definition.body).length⟩ := by
  have hname : readBlockName definition.kind taken 0
      (⟨.word definition.name, 0⟩ ::
        (tokensAt 0 (basePieces definition.body) ++ [⟨.mark '{', 0⟩])) =
      .ok (⟨definition.name, 0⟩,
        tokensAt 0 (basePieces definition.body) ++ [⟨.mark '{', 0⟩]) := by
    simp only [readBlockName, bind, Except.bind]
    rw [declare_of_not_mem hformed.name hnew]
  have hblock : readBlock definition.kind 0 [⟨.mark '{', 0⟩]
      ((furtherLines definition.body).map (lineAt 0) ++ rest) =
        .ok ⟨blockTokens (memberLines definition.body), 0,
          (furtherLines definition.body).length⟩ := by
    rw [(firstLine_of_block hkind).2, List.map_append, List.append_assoc, List.length_append]
    exact @closeBlock_lines definition.kind [] (memberLines definition.body) rfl
      (tidy_memberLines h) (isPlain_memberLines definition.body) rest
  exact readBlockDefinition_eq_ok.2 ⟨_, _, _, _, _, _, hname, readBaseOf_basePieces h, hblock,
    readBody_blockTokens h hformed.body hkind _, rfl⟩

theorem readConst_firstLine {taken : List Definition} {name type value : String}
    (hname : Identifier.isValid name = true) (hnew : name ∉ taken.map (·.name)) :
    readConst taken 0
        (⟨.word type, 0⟩ :: ⟨.word name, 0⟩ :: ⟨.mark '=', 0⟩ :: tokensAt 0 [valuePiece value]) =
      .ok ⟨⟨name, 0⟩, .const type value⟩ := by
  have hvalue := @readValue_valuePiece value (.definition .const) 0 []
  rw [List.append_nil] at hvalue
  simp only [readConst, hvalue, declare_of_not_mem hname hnew]
  rfl

theorem readTypedef_firstLine {taken : List Definition} {name type : String}
    (hname : Identifier.isValid name = true) (hnew : name ∉ taken.map (·.name)) :
    readTypedef taken 0 [⟨.word type, 0⟩, ⟨.word name, 0⟩] =
      .ok ⟨⟨name, 0⟩, .typedef type⟩ := by
  simp only [readTypedef, declare_of_not_mem hname hnew]
  rfl

/-- A definition is read back from its lines. -/
theorem readDefinition_definitionLines {taken : List Definition} {definition : Definition}
    (hnew : definition.name ∉ taken.map (·.name)) (hformed : definition.WellFormed)
    (h : PrintsBody definition.body) (rest : List Line) :
    readDefinition taken (lineAt 0 (firstLine definition))
        ((furtherLines definition.body).map (lineAt 0) ++ rest) =
      .ok ⟨definition.renumber onto0, (furtherLines definition.body).length⟩ := by
  have htokens := (tidy_firstLine hformed.name h).tokens 0
  obtain ⟨⟨name, line⟩, body⟩ := definition
  rw [readDefinition, htokens]
  cases body with
  | const type value =>
    change (readConst taken 0 _ >>= fun _ => _) = _
    exact congrArg (· >>= _) (readConst_firstLine hformed.name hnew)
  | typedef type =>
    change (readTypedef taken 0 _ >>= fun _ => _) = _
    exact congrArg (· >>= _) (readTypedef_firstLine hformed.name hnew)
  | _ =>
    rw [(firstLine_of_block (by simp [Body.kind])).1]
    exact readBlockDefinition_furtherLines hnew hformed h (by simp [Body.kind]) rest

/-- Definitions are read back from their lines. -/
theorem readDefinitions_lines {taken definitions : List Definition}
    (hnames : ((taken ++ definitions).map (·.name)).Nodup)
    (hformed : ∀ definition ∈ definitions, definition.WellFormed)
    (h : ∀ definition ∈ definitions, PrintsBody definition.body) :
    readDefinitions (taken.map (Definition.renumber onto0))
        ((definitions.flatMap definitionLines).map (lineAt 0)) =
      .ok ((taken ++ definitions).map (Definition.renumber onto0)) := by
  induction definitions generalizing taken with
  | nil => rw [List.flatMap_nil, List.map_nil, readDefinitions, List.append_nil]
  | cons definition definitions ih =>
    rw [List.forall_mem_cons] at hformed h
    have hnew : definition.name ∉ (taken.map (Definition.renumber onto0)).map (·.name) := by
      rw [List.map_map]
      rw [List.map_append, List.nodup_append] at hnames
      intro hname
      exact hnames.2.2 _ hname _ (List.mem_map_of_mem List.mem_cons_self) rfl
    rw [List.append_cons taken definition definitions] at hnames ⊢
    rw [← ih hnames hformed.2 h.2, List.flatMap_cons, List.map_append, definitionLines,
      List.map_cons, List.cons_append, readDefinitions,
      readDefinition_definitionLines hnew hformed.1 h.1]
    simp only [bind, Except.bind]
    rw [map_append_singleton, List.drop_left' (List.length_map ..)]

/-- The meaningful lines of tidy lines are those lines, whatever their numbers. -/
theorem meaningfulFrom_lineText {lines : List (List Piece)} (h : ∀ line ∈ lines, Tidy line)
    (first : Nat) :
    (Line.meaningfulFrom first (lines.map fun line => String.ofList (lineText line))).map
        (Line.renumber onto0) = lines.map (lineAt 0) := by
  induction lines generalizing first with
  | nil => rfl
  | cons line lines ih =>
    rw [List.forall_mem_cons] at h
    rw [List.map_cons, List.map_cons, Line.meaningfulFrom, h.1.ofRaw?, List.map_append, ih h.2]
    rfl

/-- The first line of a definition is no directive. -/
theorem effect?_firstLine {definition : Definition} (h : Tidy (firstLine definition)) :
    Header.effect? (Text.fieldsOf (String.ofList (lineText (firstLine definition)))) = none := by
  have hstart : ∀ c ∈ (lineText (firstLine definition)).head?, Text.isBlank c = false := by
    intro c hc
    obtain ⟨first, hfirst, hblank⟩ := h.exists_head?
    rw [hfirst] at hc
    cases hc
    exact hblank
  exact Header.effect?_of_scan hstart (scan_lineText h.toSound)

/-- The header of a canonical text is empty: its first line starts a definition. -/
theorem rest_header_text (name : String) {definitions : List Definition} (hne : definitions ≠ [])
    (htidy : ∀ line ∈ definitions.flatMap definitionLines, Tidy line) :
    (Document.ofSource name (text definitions)).header.rest.map (Line.renumber onto0) =
      (definitions.flatMap definitionLines).map (lineAt 0) := by
  have hsource : (Document.ofSource name (text definitions)).lines =
      (definitions.flatMap definitionLines).map fun line => String.ofList (lineText line) := by
    rw [Document.ofSource, Text.linesOf, text, String.toList_ofList, lines_lineText htidy,
      List.map_map]
    rfl
  rw [← meaningfulFrom_lineText htidy 0, ← hsource, Document.header, Line.meaningful]
  obtain ⟨definition, definitions, rfl⟩ := List.exists_cons_of_ne_nil hne
  have hfirst : Tidy (firstLine definition) := htidy _ (by simp [definitionLines])
  have hmeaningful : ∃ rest, Line.meaningfulFrom 0
      (Document.ofSource name (text (definition :: definitions))).lines =
        lineAt 0 (firstLine definition) :: rest := by
    rw [hsource, List.flatMap_cons, definitionLines, List.cons_append, List.map_cons,
      Line.meaningfulFrom, hfirst.ofRaw?]
    exact ⟨_, rfl⟩
  obtain ⟨rest, hmeaningful⟩ := hmeaningful
  rw [hmeaningful, Header.read, lineAt, effect?_firstLine hfirst]

/-- A document with the canonical text of well-formed definitions can be read. It then has these
definitions, in order and up to their lines. -/
theorem read_text (name : String) {definitions : List Definition} (hne : definitions ≠ [])
    (hnames : (definitions.map (·.name)).Nodup)
    (hformed : ∀ definition ∈ definitions, definition.WellFormed)
    (h : ∀ definition ∈ definitions, PrintsBody definition.body) :
    ∃ document, (Document.ofSource name (text definitions)).read = .ok document ∧
      document.definitions.map (Definition.renumber onto0) =
        definitions.map (Definition.renumber onto0) := by
  have htidy : ∀ line ∈ definitions.flatMap definitionLines, Tidy line := by
    intro line hline
    obtain ⟨definition, hdefinition, hline⟩ := List.mem_flatMap.1 hline
    exact tidy_of_mem_definitionLines (hformed definition hdefinition).name
      (h definition hdefinition) line hline
  have hrenumbered := @readDefinitions_renumber onto0 []
    (Document.ofSource name (text definitions)).header.rest
  have hlines := @readDefinitions_lines [] definitions hnames hformed h
  rw [rest_header_text name hne htidy] at hrenumbered
  rw [List.map_nil, List.nil_append] at hlines
  rw [List.map_nil, hlines] at hrenumbered
  cases hread : Grammar.readDefinitions []
      (Document.ofSource name (text definitions)).header.rest with
  | error violation =>
    rw [hread] at hrenumbered
    cases hrenumbered
  | ok found =>
    rw [hread, renumbered_ok, Except.ok.injEq] at hrenumbered
    have hfound : found.isEmpty = false := by
      rw [List.isEmpty_eq_false_iff]
      rintro rfl
      exact hne (List.map_eq_nil_iff.1 hrenumbered)
    have hdefinitions :
        (Document.ofSource name (text definitions)).readDefinitions = .ok found := by
      simp only [Document.readDefinitions, hread, bind, Except.bind, hfound]
      rfl
    exact ⟨_, Document.read_eq_ok_iff.2 ⟨found, hdefinitions, rfl⟩, hrenumbered.symm⟩

open Body (typedef) in
/-- Definitions of every kind, with members of every sort. -/
def sampleDefinitions : List Definition := [
  ⟨⟨"LIMIT", 0⟩, .const "string" "\"5, or # 6\""⟩,
  ⟨⟨"Table", 0⟩, typedef "map<string,list<i32>>"⟩,
  ⟨⟨"Mode", 0⟩, .enum [⟨"A", 0, false, 0⟩, ⟨"B", -4, true, 0⟩, ⟨"C", -3, false, 0⟩]⟩,
  ⟨⟨"Word", 0⟩, .senum ["on", ""]⟩,
  ⟨⟨"Late", 0⟩, .exception [⟨-1, .unstated, "i32", "after", none, 0⟩]⟩,
  ⟨⟨"Item", 0⟩, .struct [
    ⟨1, .required, "Table", "names", none, 0⟩, ⟨2, .optional, "double", "limit", some "-5.0", 0⟩]⟩,
  ⟨⟨"Desk", 0⟩, .service (some "shared.Base") [
    ⟨"drop", none, true, [⟨1, .unstated, "Item", "item", none, 0⟩], [], 0⟩,
    ⟨"take", some "set<Item>", false,
      [⟨1, .unstated, "i32", "id", none, 0⟩, ⟨2, .unstated, "i32", "wait", some "0", 0⟩],
      [⟨1, .unstated, "Late", "late", none, 0⟩], 0⟩]⟩]

theorem isType_set : IsType "set<Item>" := by
  have htext : "set<Item>".toList =
      "set".toList ++ '<' :: ("Item".toList ++ ([].flatMap (',' :: ·) ++ ['>'])) := by decide
  refine ⟨?_, by decide⟩
  rw [htext]
  exact .applied (by decide) (.name (by decide)) (by simp)

theorem isType_map : IsType "map<string,list<i32>>" := by
  have hlist : TypeText "list<i32>".toList := by
    have htext : "list<i32>".toList =
        "list".toList ++ '<' :: ("i32".toList ++ ([].flatMap (',' :: ·) ++ ['>'])) := by decide
    rw [htext]
    exact .applied (by decide) (.name (by decide)) (by simp)
  have htext : "map<string,list<i32>>".toList = "map".toList ++ '<' ::
      ("string".toList ++ (["list<i32>".toList].flatMap (',' :: ·) ++ ['>'])) := by decide
  refine ⟨?_, by decide⟩
  rw [htext]
  exact .applied (by decide) (.name (by decide)) (by simpa using hlist)

theorem isType_of_isValid {type : String} (h : Identifier.isValid type = true)
    (hreserved : type ∉ reserved) : IsType type :=
  ⟨.name h, hreserved⟩

theorem printsField_of_isValid {fields : List Field}
    (h : ∀ field ∈ fields, Identifier.isValid field.name = true ∧
      Identifier.isValid field.type = true ∧ field.type ∉ reserved ∧
      ∀ value ∈ field.default?, value.toList ≠ [] ∧ value.toList.all isValueChar = true) :
    ∀ field ∈ fields, PrintsField field := by
  intro field hfield
  obtain ⟨hname, htype, hreserved, hdefault⟩ := h field hfield
  refine ⟨hname, isType_of_isValid htype hreserved, fun value hvalue => Or.inl ?_⟩
  exact ⟨(hdefault value hvalue).1, List.all_eq_true.1 (hdefault value hvalue).2⟩

theorem printsBody_sample : ∀ definition ∈ sampleDefinitions, PrintsBody definition.body := by
  have hlimit : IsValue "\"5, or # 6\"" :=
    Or.inr ⟨"5, or # 6".toList, by decide, List.all_eq_true.1 (by decide)⟩
  have hwords : ∀ value ∈ ["on", ""], ∀ c ∈ value.toList, isPlain c = true := by
    have hall : ["on", ""].all (·.toList.all isPlain) = true := by decide
    exact fun value hvalue => List.all_eq_true.1 (List.all_eq_true.1 hall value hvalue)
  have hdrop : PrintsFunction
      ⟨"drop", none, true, [⟨1, .unstated, "Item", "item", none, 0⟩], [], 0⟩ :=
    ⟨by decide, by simp, printsField_of_isValid (by decide), by simp⟩
  have htake : PrintsFunction ⟨"take", some "set<Item>", false,
      [⟨1, .unstated, "i32", "id", none, 0⟩, ⟨2, .unstated, "i32", "wait", some "0", 0⟩],
      [⟨1, .unstated, "Late", "late", none, 0⟩], 0⟩ :=
    ⟨by decide, by simpa using isType_set, printsField_of_isValid (by decide),
      printsField_of_isValid (by decide)⟩
  simp only [sampleDefinitions, List.forall_mem_cons]
  refine ⟨⟨isType_of_isValid (by decide) (by decide), hlimit⟩, isType_map,
    ⟨by decide, by decide, by decide, by decide, trivial⟩, hwords,
    printsField_of_isValid (by decide), printsField_of_isValid (by decide), ⟨by decide, ?_⟩,
    by simp⟩
  simpa using ⟨hdrop, htake⟩

/-- The sample's canonical text is read to the sample. -/
theorem read_text_sample : ∃ document,
    (Document.ofSource "sample.thrift" (text sampleDefinitions)).read = .ok document ∧
      document.definitions.map (Definition.renumber onto0) =
        sampleDefinitions.map (Definition.renumber onto0) :=
  read_text "sample.thrift" (by decide) (by decide) (by decide) printsBody_sample

end Canonical

end ThriftIdl

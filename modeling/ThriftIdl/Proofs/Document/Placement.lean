import ThriftIdl.Proofs.Canonical.Scanning
import ThriftIdl.Proofs.Comments
import ThriftIdl.Proofs.Document.WellFormed
import ThriftIdl.Proofs.Header

/-!
Where definitions stand. The lines that a definition takes are its own, so the lines in a document
that was read are in the order of the text: a definition's name is on its line, its members follow
in their order, and the next definition starts below them.
-/

namespace ThriftIdl

/-- A word without brackets stands in the text as it is. -/
theorem Lexeme.infix_of_mem_scan {text : List Char} {word : String}
    (hword : ∀ c ∈ word.toList, c ≠ '<' ∧ c ≠ '[') (h : .word word ∈ scan text) :
    word.toList <:+: text := by
  fun_induction scan text with
  | case1 => exact absurd h List.not_mem_nil
  | case2 c rest _ ih => exact (ih h).trans (List.suffix_cons c rest).isInfix
  | case3 c rest _ _ ih =>
    rcases List.mem_cons.1 h with h | h
    · cases h
    · exact (ih h).trans (List.suffix_cons c rest).isInfix
  | case4 c rest _ _ _ _ ih =>
    rcases List.mem_cons.1 h with h | h
    · cases h
    · exact (ih h).trans ((splitLiteral_suffix c rest).trans (List.suffix_cons c rest)).isInfix
  | case5 c rest _ _ _ _ ih =>
    rcases List.mem_cons.1 h with h | h
    · cases h
      rw [String.toList_ofList, List.forall_mem_cons] at hword
      rw [String.toList_ofList]
      rw [nest_of_plain hword.1] at hword ⊢
      have happend := (splitWord_of_plain hword.2).1
      exact (List.cons_prefix_cons.2 ⟨rfl, _, happend⟩).isInfix
    · exact (ih h).trans ((splitWord_suffix _ rest).trans (List.suffix_cons c rest)).isInfix

/-- An identifier has no brackets. -/
theorem Identifier.plain_of_isValid {name : String} (h : isValid name = true) :
    ∀ c ∈ name.toList, c ≠ '<' ∧ c ≠ '[' := by
  intro c hc
  have hvalue := (Canonical.isValueChar_of_spelledBy h).2 c hc
  constructor
  · rintro rfl
    exact absurd hvalue (by decide)
  · rintro rfl
    exact absurd hvalue (by decide)

namespace Line

open Grammar (line_of_mem_tokens)

/-- What cleaning leaves stands in the raw line as it is. -/
theorem isInfix_clean (raw : List Char) : clean raw <:+: raw := by
  have hplain : Text.trimStart (uncomment none raw) <:+ uncomment none raw :=
    List.dropWhile_suffix _
  have hcomment := uncomment_prefix_self none raw
  exact ((clean_prefix_trimStart raw).isInfix.trans hplain.isInfix).trans hcomment.isInfix

/-- The tokens of lines in order do not go back to an earlier line. -/
theorem pairwise_tokens {lines : List Line} (h : lines.Pairwise (·.number < ·.number)) :
    ((lines.flatMap tokens).map (·.line)).Pairwise (· ≤ ·) := by
  rw [List.pairwise_map, List.pairwise_flatMap]
  constructor
  · intro line _
    apply List.pairwise_of_forall_mem_list
    intro first hfirst second hsecond
    rw [line_of_mem_tokens hfirst, line_of_mem_tokens hsecond]
  · refine h.imp fun {line other} hlt first hfirst second hsecond => ?_
    rw [line_of_mem_tokens hfirst, line_of_mem_tokens hsecond]
    exact Nat.le_of_lt hlt

end Line

/-- The earlier definition ends above the line on which the later one starts. -/
structure Definition.Before (earlier later : Definition) : Prop where
  line : earlier.line < later.line
  members : ∀ line ∈ earlier.body.lines, line < later.line

namespace Grammar

variable {taken definitions : List Definition} {lines : List Line} {definition : Definition}

/-- The definition's name is a word on its line, which is one of the lines, and its lines do not
decrease. -/
structure Stands (lines : List Line) (definition : Definition) : Prop where
  named : ∃ line ∈ lines, ⟨.word definition.name, definition.line⟩ ∈ line.tokens
  ordered : definition.lines.Pairwise (· ≤ ·)

/-- The definition ends above all of the lines. -/
def EndsAbove (lines : List Line) (definition : Definition) : Prop :=
  ∀ number ∈ definition.lines, ∀ line ∈ lines, number < line.number

theorem EndsAbove.before {line : Line} {earlier later : Definition}
    (h : EndsAbove (line :: lines) earlier) (hline : later.line = line.number) :
    earlier.Before later := by
  have hall : ∀ number ∈ earlier.lines, number < later.line :=
    fun number hnumber => hline ▸ h number hnumber line List.mem_cons_self
  obtain ⟨hname, hmembers⟩ := List.forall_mem_cons.1 hall
  exact ⟨hname, hmembers⟩

theorem EndsAbove.drop {line : Line} (h : EndsAbove (line :: lines) definition) (used : Nat) :
    EndsAbove (lines.drop used) definition :=
  fun number hnumber other hother =>
    h number hnumber other (List.mem_cons_of_mem line (List.mem_of_mem_drop hother))

/-- What one definition takes of lines in order: it stands on its first line, and ends above the
lines that it does not take. -/
theorem readDefinition_stands {line : Line} {extent : Extent}
    (hlines : (line :: lines).Pairwise (·.number < ·.number))
    (h : readDefinition taken line lines = .ok extent) :
    extent.definition.line = line.number ∧ Stands (line :: lines) extent.definition ∧
      EndsAbove (lines.drop extent.used) extent.definition := by
  have hdeclares := readDefinition_declares h
  have hsublist : extent.definition.lines.Sublist
      (((line :: lines.take extent.used).flatMap Line.tokens).map (·.line)) := hdeclares.lines
  refine ⟨line_of_mem_tokens hdeclares.name, ⟨?_, ?_⟩, ?_⟩
  · exact ⟨line, List.mem_cons_self, hdeclares.name⟩
  · have htaken := hlines.sublist ((List.take_sublist extent.used lines).cons_cons line)
    exact (Line.pairwise_tokens htaken).sublist hsublist
  · have hsplit : (line :: lines.take extent.used ++ lines.drop extent.used).Pairwise
        (·.number < ·.number) := by
      rwa [List.cons_append, List.take_append_drop]
    have habove : NumbersIn (fun number => ∀ other ∈ lines.drop extent.used, number < other.number)
        (line :: lines.take extent.used) := (List.pairwise_append.1 hsplit).2.2
    exact habove.linesIn.of_sublist hsublist

/-- Definitions that are read from lines in order stand in this order, each above the next. -/
theorem readDefinitions_ordered {all : List Line}
    (hlines : lines.Pairwise (·.number < ·.number)) (hall : lines <:+ all)
    (hordered : taken.Pairwise Definition.Before)
    (htaken : ∀ definition ∈ taken, Stands all definition ∧ EndsAbove lines definition)
    (h : readDefinitions taken lines = .ok definitions) :
    definitions.Pairwise Definition.Before ∧ ∀ definition ∈ definitions, Stands all definition := by
  fun_induction readDefinitions taken lines with
  | case1 =>
    cases h
    exact ⟨hordered, fun definition hdefinition => (htaken definition hdefinition).1⟩
  | case2 taken line rest ih =>
    obtain ⟨extent, hextent, h⟩ := bind_eq_ok.1 h
    obtain ⟨hline, ⟨⟨first, hfirst, hnamed⟩, hdefinition⟩, hends⟩ :=
      readDefinition_stands hlines hextent
    apply ih extent _ _ _ _ h
    · exact hlines.tail.sublist (List.drop_sublist _ _)
    · exact ((List.drop_suffix _ _).trans (List.suffix_cons line rest)).trans hall
    · refine List.pairwise_append.2 ⟨hordered, List.pairwise_singleton _ _, ?_⟩
      intro earlier hearlier later hlater
      rw [List.mem_singleton.1 hlater]
      exact (htaken earlier hearlier).2.before hline
    · rw [List.forall_mem_append, List.forall_mem_singleton]
      refine ⟨fun earlier hearlier => ?_, ⟨⟨first, hall.subset hfirst, hnamed⟩, hdefinition⟩, hends⟩
      exact ⟨(htaken earlier hearlier).1, (htaken earlier hearlier).2.drop extent.used⟩

end Grammar

/-- The lines of a function are ordered if the lines of its service are. -/
theorem Body.ordered_function {body : Body} (h : body.lines.Pairwise (· ≤ ·)) {function : Function}
    (hfunction : function ∈ body.functions) : function.lines.Pairwise (· ≤ ·) := by
  cases body with
  | service base? functions =>
    exact (List.pairwise_flatMap.1 h).1 function hfunction
  | _ => exact absurd hfunction List.not_mem_nil

/-- The definition is where the text has it: its raw line contains its name, its members stand in
their order on this line or below, and those inside a function not above the function. -/
structure Definition.Placed (raws : List String) (definition : Definition) : Prop where
  named : ∃ raw, raws[definition.line]? = some raw ∧ definition.name.toList <:+: raw.toList
  members : ∀ line ∈ definition.body.lines, definition.line ≤ line
  ordered : definition.body.lines.Pairwise (· ≤ ·)
  functions : ∀ function ∈ definition.body.functions,
    ∀ field ∈ function.params ++ function.throws, function.line ≤ field.line

/-- A word on a meaningful line stands in the raw line as it is, if it is an identifier. -/
theorem Line.infix_of_mem_tokens {raws : List String} {line : Line} {name : String} {number : Nat}
    (hline : line ∈ meaningful raws) (hname : Identifier.isValid name = true)
    (h : ⟨.word name, number⟩ ∈ line.tokens) :
    ∃ raw, raws[number]? = some raw ∧ name.toList <:+: raw.toList := by
  obtain ⟨i, raw, hraw, hnumber, hofRaw⟩ := exists_raw_of_mem_meaningfulFrom hline
  obtain ⟨-, htext, -⟩ := ofRaw?_eq_some_iff.1 hofRaw
  obtain ⟨lexeme, hlexeme, heq⟩ := List.mem_map.1 h
  cases heq
  refine ⟨raw, ?_, ?_⟩
  · rw [hnumber, Nat.zero_add, hraw]
  · rw [htext] at hlexeme
    exact (Lexeme.infix_of_mem_scan (Identifier.plain_of_isValid hname) hlexeme).trans
      (isInfix_clean raw.toList)

namespace Document

theorem placed_of_stands {document : Document} {definition : Definition}
    (hname : Identifier.isValid definition.name = true)
    (h : Grammar.Stands document.header.rest definition) : definition.Placed document.lines := by
  obtain ⟨⟨line, hline, htoken⟩, hordered⟩ := h
  obtain ⟨hmembers, hbody⟩ := List.pairwise_cons.1 hordered
  have hmeaningful := (Header.read_rest_suffix document.namespaces _).subset hline
  refine ⟨Line.infix_of_mem_tokens hmeaningful hname htoken, hmembers, hbody, ?_⟩
  intro function hfunction field hfield
  have hfunctionLines := List.pairwise_cons.1 (Body.ordered_function hbody hfunction)
  exact hfunctionLines.1 field.line (List.mem_map_of_mem hfield)

/-- In a document that was read the lines of the definitions follow the text: each definition is
placed, and ends above the line of the next. -/
theorem placed_of_read {document result : Document} (h : document.read = .ok result) :
    result.definitions.Pairwise Definition.Before ∧
      ∀ definition ∈ result.definitions, definition.Placed document.lines := by
  have hnames := definitions_of_read h
  obtain ⟨definitions, hdefinitions, rfl⟩ := read_eq_ok_iff.1 h
  have hlines : document.header.rest.Pairwise (·.number < ·.number) :=
    (Line.pairwise_meaningfulFrom 0 document.lines).sublist
      (Header.read_rest_suffix document.namespaces _).sublist
  obtain ⟨hordered, hstands⟩ := Grammar.readDefinitions_ordered hlines List.suffix_rfl
    List.Pairwise.nil (by simp) (readDefinitions_eq_ok hdefinitions)
  refine ⟨hordered, fun definition hdefinition => ?_⟩
  exact placed_of_stands (hnames definition hdefinition).name (hstands definition hdefinition)

/-- A document with blocks and parentheses that take several lines. -/
def spread : Document :=
  ofSource "desk.thrift" ("enum Mode\n\x7b\n  A,\n  B\n\x7d\n# what is on offer\nservice Desk \x7b\n" ++
    "  void take(\n    1: i32 id) throws (\n    Late)\n\x7d")

/-- The definitions of `spread` as they are read. -/
def spreadDefinitions : List Definition := [
  ⟨⟨"Mode", 0⟩, .enum [⟨"A", 0, false, 2⟩, ⟨"B", 1, false, 3⟩]⟩,
  ⟨⟨"Desk", 6⟩, .service none [⟨"take", none, false, [⟨1, .unstated, "i32", "id", none, 8⟩],
    [⟨1, .unstated, "Late", "Late", none, 9⟩], 7⟩]⟩]

theorem placed_of_read_spread :
    spread.read = .ok { spread with definitions := spreadDefinitions } ∧
      spreadDefinitions.Pairwise Definition.Before ∧
      ∀ definition ∈ spreadDefinitions, definition.Placed spread.lines := by
  have hread : spread.read = .ok { spread with definitions := spreadDefinitions } := by
    decide +kernel
  exact ⟨hread, placed_of_read hread⟩

end Document

end ThriftIdl

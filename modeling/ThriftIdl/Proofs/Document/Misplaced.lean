import ThriftIdl.Proofs.Canonical.Lines
import ThriftIdl.Proofs.Document.Concatenation
import ThriftIdl.Proofs.Document.Directives
import ThriftIdl.Proofs.Document.Faults
import ThriftIdl.Proofs.Grammar.Blocks

/-!
Directives that are met where a definition is expected. What stands before such a directive was read
to definitions, and to at least one of them unless the line follows the header and a mark or quote
follows its keyword at once: the header takes a directive's keyword up to the next blank, while
words end at marks and quotes too.
-/

namespace ThriftIdl

namespace Grammar

variable {lines more : List Line}

theorem readBlock_take {kind : Kind} {start : Nat} {tokens : List Token} {block : Block}
    (hlines : ∀ line ∈ lines, line.tokens ≠ []) (hmore : ∀ line ∈ more, line.tokens ≠ [])
    (h : readBlock kind start tokens lines = .ok block) :
    block.used ≤ lines.length ∧
      readBlock kind start tokens (lines.take block.used ++ more) = .ok block := by
  have hencloses := (readBlock_eq_ok_iff hlines).1 h
  refine ⟨hencloses.used_le, (readBlock_eq_ok_iff ?_).2 (hencloses.take more)⟩
  rw [List.forall_mem_append]
  exact ⟨fun line hline => hlines line (List.mem_of_mem_take hline), hmore⟩

/-- A definition depends on no line after those it takes. -/
theorem readDefinition_take {taken : List Definition} {line : Line} {extent : Extent}
    (hlines : ∀ line ∈ lines, line.tokens ≠ []) (hmore : ∀ line ∈ more, line.tokens ≠ [])
    (h : readDefinition taken line lines = .ok extent) :
    extent.used ≤ lines.length ∧
      readDefinition taken line (lines.take extent.used ++ more) = .ok extent := by
  rw [readDefinition.eq_def] at h ⊢
  split at h
  · cases h
  · split at h
    · split at h
      · cases h
      · obtain ⟨definition, hdefinition, h⟩ := bind_eq_ok.1 h
        cases h
        exact ⟨Nat.zero_le _, bind_eq_ok.2 ⟨definition, hdefinition, rfl⟩⟩
      · obtain ⟨definition, hdefinition, h⟩ := bind_eq_ok.1 h
        cases h
        exact ⟨Nat.zero_le _, bind_eq_ok.2 ⟨definition, hdefinition, rfl⟩⟩
      · obtain ⟨declared, afterName, base?, afterBase, block, body, hname, hbase, hblock, hbody,
          rfl⟩ := readBlockDefinition_eq_ok.1 h
        obtain ⟨hused, htake⟩ := readBlock_take hlines hmore hblock
        exact ⟨hused, readBlockDefinition_eq_ok.2 ⟨declared, afterName, base?, afterBase, block, body,
          hname, hbase, htake, hbody, rfl⟩⟩
    · cases h

/-- Where reading definitions meets an unexpected word, this is the first of a line, and the lines
before it were read to definitions. -/
theorem exists_before_of_unexpected {taken : List Definition}
    (htokens : ∀ line ∈ lines, line.tokens ≠ []) {violation : Violation}
    (h : readDefinitions taken lines = .error violation) (hrule : ¬violation.rule.IsInner) :
    ∃ before line after definitions token, lines = before ++ line :: after ∧
      readDefinitions taken before = .ok definitions ∧ line.tokens.head? = some token ∧
      violation = ⟨token.line, .unexpectedWord token.text⟩ := by
  fun_induction readDefinitions taken lines with
  | case1 => cases h
  | case2 taken line rest ih =>
    rw [List.forall_mem_cons] at htokens
    cases hfirst : readDefinition taken line rest with
    | error other =>
      rw [hfirst] at h
      cases h
      obtain ⟨-, hinner | ⟨token, htoken, hword⟩⟩ :=
        readDefinition_error (P := fun _ => True) trivial (fun _ _ => trivial) htokens.1 hfirst
      · exact absurd hinner hrule
      · exact ⟨[], line, rest, taken, token, rfl, by rw [readDefinitions], htoken, hword⟩
    | ok extent =>
      rw [hfirst] at h
      obtain ⟨before, bad, after, definitions, token, hrest, hbefore, htoken, hword⟩ :=
        ih extent (fun other hother => htokens.2 other (List.mem_of_mem_drop hother)) h
      have hsub : ∀ other ∈ before, other.tokens ≠ [] := by
        intro other hother
        refine htokens.2 other (List.mem_of_mem_drop (i := extent.used) ?_)
        rw [hrest]
        exact List.mem_append_left _ hother
      obtain ⟨hused, htake⟩ := readDefinition_take htokens.2 hsub hfirst
      refine ⟨line :: (rest.take extent.used ++ before), bad, after, definitions, token, ?_, ?_,
        htoken, hword⟩
      · rw [List.cons_append, List.append_assoc, ← hrest, List.take_append_drop]
      · rw [readDefinitions, htake]
        change readDefinitions _ ((rest.take extent.used ++ before).drop extent.used) = _
        rw [List.drop_left' (List.length_take_of_le hused)]
        exact hbefore

/-- Every line adds to the definitions. -/
theorem readDefinitions_ne_nil {line : Line} {definitions : List Definition}
    (h : readDefinitions [] (line :: lines) = .ok definitions) : definitions ≠ [] := by
  obtain ⟨extent, -, -, h⟩ := readDefinitions_cons_eq_ok_iff.1 h
  obtain ⟨own, -, -, rfl⟩ := readDefinitions_eq_ok_iff.1 h
  exact List.append_ne_nil_of_left_ne_nil (List.cons_ne_nil _ _) _

end Grammar

namespace Text

/-- A word before a blank or the end is the first field. -/
theorem fields_append_of_blank {word rest : List Char} (hne : word ≠ [])
    (hword : ∀ c ∈ word, isBlank c = false) (hrest : ∀ c ∈ rest.head?, isBlank c = true) :
    fields (word ++ rest) = word :: fields rest := by
  induction word with
  | nil => exact absurd rfl hne
  | cons c word ih =>
    rw [List.forall_mem_cons] at hword
    rw [List.cons_append, fields, if_neg (by simp [hword.1])]
    cases word with
    | nil =>
      have hnone : rest.head?.any (!isBlank ·) = false := by
        rw [Option.any_eq_false]
        intro d hd
        simp [hrest d hd]
      rw [List.nil_append, hnone]
    | cons d word =>
      have hd := hword.2 d List.mem_cons_self
      rw [ih (List.cons_ne_nil d word) hword.2]
      simp only [List.cons_append, List.head?_cons, Option.any_some, hd, Bool.not_false]

end Text

namespace Directive

theorem isValid_word (directive : Directive) : Identifier.isValid directive.word = true := by
  cases directive <;> decide

/-- No directive opens a definition. -/
theorem kind_ofWord? (directive : Directive) : Kind.ofWord? directive.word = none := by
  cases directive <;> decide

theorem plain_word (directive : Directive) :
    ∀ c ∈ directive.word.toList, c ≠ '<' ∧ c ≠ '[' := by
  have hall : directive.word.toList.all (fun c => c != '<' && c != '[') = true := by
    cases directive <;> decide
  simpa using hall

theorem isBlank_word (directive : Directive) :
    ∀ c ∈ directive.word.toList, Text.isBlank c = false := by
  have hall : directive.word.toList.all (!Text.isBlank ·) = true := by
    cases directive <;> decide
  simpa using hall

/-- The text is the directive's keyword with a mark or a quote right after it. -/
def Glued (directive : Directive) (text : List Char) : Prop :=
  ∃ c rest, text = directive.word.toList ++ c :: rest ∧
    (Lexeme.isMark c = true ∨ Line.isQuote c = true)

end Directive

namespace Line

variable {line : Line} {directive : Directive}

/-- The line starts with the keyword of the directive, a word by itself. -/
def StartsWith (line : Line) (directive : Directive) : Prop :=
  line.tokens.head? = some ⟨.word directive.word, line.number⟩

/-- A mark or a quote ends a word as a blank does. -/
theorem startsWith_of_glued (h : directive.Glued line.text.toList) : line.StartsWith directive := by
  obtain ⟨c, rest, htext, hc⟩ := h
  have hends : Canonical.EndsWords (c :: rest) := by
    intro d hd
    cases hd
    rcases hc with hmark | hquote
    · simp [Lexeme.endsWord, hmark]
    · simp [Lexeme.endsWord, hquote]
  have hscan := Canonical.scan_whole (Canonical.whole_of_isValid directive.isValid_word) hends
  rw [StartsWith, tokens, htext, hscan, String.ofList_toList]
  rfl

/-- A line that starts with a directive but is none for a header has a mark or quote after it. -/
theorem glued_of_startsWith (hblank : ∀ c ∈ line.text.toList.head?, Text.isBlank c = false)
    (h : line.StartsWith directive) (hheader : Header.effect? (Text.fieldsOf line.text) = none) :
    directive.Glued line.text.toList := by
  obtain ⟨lexemes, hscan⟩ : ∃ lexemes,
      Lexeme.scan line.text.toList = .word directive.word :: lexemes := by
    rw [StartsWith, tokens, List.head?_map, Option.map_eq_some_iff] at h
    obtain ⟨lexeme, hhead, htoken⟩ := h
    cases htoken
    exact List.head?_eq_some_iff.1 hhead
  obtain ⟨rest, htext, hends⟩ := Lexeme.exists_of_scan_word hblank directive.plain_word hscan
  have hne : directive.word.toList ≠ [] := by cases directive <;> decide
  -- Before a blank or the end the keyword would be the first field, and the line a directive.
  have hfields : ¬∀ c ∈ rest.head?, Text.isBlank c = true := by
    intro hrest
    have hfirst := Text.fields_append_of_blank hne directive.isBlank_word hrest
    rw [Text.fieldsOf, htext, hfirst, List.map_cons, String.ofList_toList] at hheader
    rcases Header.effect?_cases (directive.word :: (Text.fields rest).map String.ofList) with
      ⟨-, hnone⟩ | ⟨_, _, hsome, -⟩ | ⟨_, hsome, -⟩
    · simp [Header.directive?, Directive.ofWord?_eq_some_iff.2 rfl] at hnone
    · rw [hheader] at hsome
      cases hsome
    · rw [hheader] at hsome
      cases hsome
  cases rest with
  | nil => simp at hfields
  | cons c rest =>
    refine ⟨c, rest, htext, ?_⟩
    have hc : Lexeme.endsWord c = true := hends c rfl
    have hnotBlank : Text.isBlank c = false := by simpa using hfields
    simpa [Lexeme.endsWord, hnotBlank] using hc

/-- Two meaningful lines of a document with one number are the same. -/
theorem eq_of_number_eq {raws : List String} {other : Line} (h : line ∈ meaningful raws)
    (hother : other ∈ meaningful raws) (hnumber : line.number = other.number) : line = other := by
  obtain ⟨i, raw, hraw, hi, hline⟩ := exists_raw_of_mem_meaningfulFrom h
  obtain ⟨j, raw', hraw', hj, hline'⟩ := exists_raw_of_mem_meaningfulFrom hother
  obtain rfl : i = j := by omega
  rw [hraw, Option.some.injEq] at hraw'
  rw [hraw', hnumber, hline', Option.some.injEq] at hline
  exact hline.symm

end Line

namespace Header

/-- The line that ends a header is no directive for it. -/
theorem effect?_of_rest {table : Table String} {lines after : List Line} {line : Line}
    (h : (read table lines).rest = line :: after) : effect? (Text.fieldsOf line.text) = none := by
  induction lines generalizing table with
  | nil => cases h
  | cons first lines ih =>
    rw [read.eq_def] at h
    dsimp only at h
    split at h
    · next heffect =>
      cases h
      exact heffect
    · exact ih h
    · exact ih h

end Header

namespace Grammar

/-- A directive is no definition. -/
theorem readDefinition_of_startsWith {taken : List Definition} {line : Line} {lines : List Line}
    {directive : Directive} (h : line.StartsWith directive) :
    readDefinition taken line lines =
      .error ⟨line.number, .unexpectedWord directive.word⟩ := by
  obtain ⟨tokens, htokens⟩ := List.head?_eq_some_iff.1 h
  rw [readDefinition, htokens]
  dsimp only
  rw [directive.kind_ofWord?]

end Grammar

namespace Document

/-- Reading the document fails with an unexpected keyword on the line, which starts with the
directive. -/
structure Misplaced (document : Document) (directive : Directive) (line : Line) : Prop where
  mem : line ∈ Line.meaningful document.lines
  starts : line.StartsWith directive
  fails : ∃ fault, document.read = .error fault ∧ fault.category = .unexpectedKeyword ∧
    fault.location? = some ⟨document.name, line.number⟩

/-- The definitions are those that were read before the line. -/
def ReadsBefore (document : Document) (line : Line) (definitions : List Definition) : Prop :=
  ∃ before after, document.header.rest = before ++ line :: after ∧
    Grammar.readDefinitions [] before = .ok definitions

variable {document : Document} {directive : Directive} {line : Line}

theorem mem_of_mem_rest (h : line ∈ document.header.rest) :
    line ∈ Line.meaningful document.lines :=
  (Header.read_rest_suffix _ _).subset h

/-- An unexpected keyword is met among the lines after the header. -/
theorem exists_of_unexpectedKeyword {fault : Fault} (h : document.read = .error fault)
    (hcategory : fault.category = .unexpectedKeyword) :
    ∃ number text, Grammar.readDefinitions [] document.header.rest =
        .error ⟨number, .unexpectedWord text⟩ ∧
      fault.location? = some ⟨document.name, number⟩ ∧
      fault.help? = (Rule.unexpectedWord text).help? := by
  obtain ⟨⟨number, rule⟩, hviolation, rfl⟩ := read_eq_error_iff.1 h
  rw [Fault.withSource_eq] at hcategory ⊢
  have hrule : ∃ text, rule = .unexpectedWord text := by
    cases rule with
    | unexpectedWord text => exact ⟨text, rfl⟩
    | _ => cases hcategory
  obtain ⟨text, rfl⟩ := hrule
  refine ⟨number, text, ?_, rfl, rfl⟩
  rw [readDefinitions] at hviolation
  cases hread : Grammar.readDefinitions [] document.header.rest with
  | error violation =>
    rw [hread] at hviolation
    cases hviolation
    rfl
  | ok definitions =>
    rw [hread] at hviolation
    change (if definitions.isEmpty then _ else _) = _ at hviolation
    split at hviolation
    · cases hviolation
    · cases hviolation

/-- Everything before a misplaced directive was read to definitions. -/
theorem Misplaced.exists_readsBefore (h : document.Misplaced directive line) :
    (∃ definitions, document.ReadsBefore line definitions) ∧
      ∀ fault, document.read = .error fault →
        fault.help? = some "header directives must appear before the first definition" := by
  obtain ⟨fault, hread, hcategory, hlocation⟩ := h.fails
  obtain ⟨number, text, hunexpected, hplace, hhelp⟩ :=
    exists_of_unexpectedKeyword hread hcategory
  rw [hlocation, Option.some.injEq, Location.mk.injEq] at hplace
  obtain ⟨-, rfl⟩ := hplace
  have htokens : ∀ line ∈ document.header.rest, line.tokens ≠ [] :=
    fun line hline => Line.tokens_ne_nil_of_mem_meaningful (mem_of_mem_rest hline)
  obtain ⟨before, other, after, definitions, token, hrest, hbefore, htoken, hword⟩ :=
    Grammar.exists_before_of_unexpected htokens hunexpected not_false
  rw [Violation.mk.injEq, Rule.unexpectedWord.injEq] at hword
  obtain ⟨hnumber, rfl⟩ := hword
  have hother : other ∈ document.header.rest := hrest ▸ List.mem_append_right _ List.mem_cons_self
  have hline : token.line = other.number :=
    Grammar.line_of_mem_tokens (List.mem_of_mem_head? htoken)
  obtain rfl : line = other := Line.eq_of_number_eq h.mem (mem_of_mem_rest hother)
    (hnumber.trans hline)
  have hfirst := h.starts
  rw [Line.StartsWith, htoken, Option.some.injEq] at hfirst
  refine ⟨⟨definitions, before, after, hrest, hbefore⟩, fun other hfault => ?_⟩
  obtain rfl : fault = other := by
    rw [hread] at hfault
    exact Except.error.inj hfault
  rw [hhelp, hfirst, Token.text, Lexeme.text, Rule.help?, Directive.ofWord?_eq_some_iff.2 rfl]
  rfl

/-- A directive with a mark or a quote after it is misplaced on the first line after a header. -/
theorem misplaced_of_glued (hhead : document.header.rest.head? = some line)
    (hglued : directive.Glued line.text.toList) : document.Misplaced directive line := by
  obtain ⟨after, hrest⟩ := List.head?_eq_some_iff.1 hhead
  have hstarts := Line.startsWith_of_glued hglued
  have hmem : line ∈ document.header.rest := hrest ▸ List.mem_cons_self
  have hread : document.readDefinitions =
      .error ⟨line.number, .unexpectedWord directive.word⟩ := by
    rw [readDefinitions, hrest, Grammar.readDefinitions,
      Grammar.readDefinition_of_startsWith hstarts]
    rfl
  refine ⟨mem_of_mem_rest hmem, hstarts, _, read_eq_error_iff.2 ⟨_, hread, rfl⟩, ?_, ?_⟩
  · rw [Fault.withSource_eq]
    rfl
  · rw [Fault.withSource_eq]
    rfl

/-- No definition is read before the first line after a header. -/
theorem ReadsBefore.eq_nil {definitions : List Definition}
    (h : document.ReadsBefore line definitions) (hhead : document.header.rest.head? = some line)
    (hstarts : line.StartsWith directive) : definitions = [] := by
  obtain ⟨before, after, hrest, hbefore⟩ := h
  cases before with
  | nil =>
    rw [Grammar.readDefinitions] at hbefore
    exact (Except.ok.inj hbefore).symm
  | cons first before =>
    rw [hrest] at hhead
    cases hhead
    rw [Grammar.readDefinitions, Grammar.readDefinition_of_startsWith hstarts] at hbefore
    cases hbefore

/-- A document that is refused for a directive where a definition should be was read to definitions
up to that line. There are none of them exactly if the line is the first after the header, and a
mark or a quote follows the directive's keyword at once. -/
theorem misplaced_iff (document : Document) (directive : Directive) (line : Line) :
    (document.Misplaced directive line →
      (∃ definitions, document.ReadsBefore line definitions) ∧
        ∀ fault, document.read = .error fault →
          fault.help? = some "header directives must appear before the first definition") ∧
    (document.Misplaced directive line ∧
        (∀ definitions, document.ReadsBefore line definitions → definitions = []) ↔
      document.header.rest.head? = some line ∧ directive.Glued line.text.toList) := by
  refine ⟨fun h => h.exists_readsBefore, ?_⟩
  constructor
  · rintro ⟨h, hnone⟩
    obtain ⟨⟨definitions, before, after, hrest, hbefore⟩, -⟩ := h.exists_readsBefore
    obtain rfl := hnone definitions ⟨before, after, hrest, hbefore⟩
    cases before with
    | cons first before => exact absurd rfl (Grammar.readDefinitions_ne_nil hbefore)
    | nil =>
      obtain ⟨c, rest, htext, hc⟩ := Line.exists_text_of_mem_meaningful h.mem
      have hblank : ∀ d ∈ line.text.toList.head?, Text.isBlank d = false := by
        rw [htext]
        intro d hd
        cases hd
        exact hc
      refine ⟨by rw [hrest]; rfl, Line.glued_of_startsWith hblank h.starts ?_⟩
      exact Header.effect?_of_rest hrest
  · rintro ⟨hhead, hglued⟩
    have hstarts := Line.startsWith_of_glued hglued
    exact ⟨misplaced_of_glued hhead hglued, fun _ h => h.eq_nil hhead hstarts⟩

/-- An include whose file follows it without a blank. -/
def gluedInclude : Document :=
  ofSource "a.thrift" "include\"b.thrift\"\nconst i32 X = 1"

/-- The include at the start of the document is taken for misplaced, though nothing stands before
it. -/
theorem not_readsBefore :
    ¬∀ (document : Document) (directive : Directive) (line : Line),
      document.Misplaced directive line →
        ∃ definitions, document.ReadsBefore line definitions ∧ definitions ≠ [] := by
  intro h
  have hhead : gluedInclude.header.rest.head? = some ⟨0, "include\"b.thrift\""⟩ := by
    decide +kernel
  have hglued : Directive.Glued .includeFile "include\"b.thrift\"".toList :=
    ⟨'"', "b.thrift\"".toList, by decide, by decide⟩
  obtain ⟨definitions, hbefore, hne⟩ := h _ _ _ (misplaced_of_glued hhead hglued)
  exact hne (hbefore.eq_nil hhead (Line.startsWith_of_glued hglued))

end Document

end ThriftIdl

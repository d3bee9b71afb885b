import ThriftIdl.Proofs.Grammar.Violations
import ThriftIdl.Proofs.Joining
import ThriftIdl.Proofs.Model.Parsed

/-!
Why a document cannot be read. It breaks a rule of the grammar on one of its written lines, or holds
no definition. A meaningful line always has a token, so a text never breaks the rule that asks for
one.
-/

namespace ThriftIdl

theorem Text.trim_eq_nil_iff {text : List Char} :
    trim text = [] ↔ ∀ c ∈ text, isBlank c = true := by
  constructor
  · intro htrim
    obtain ⟨blanks, hstart, hblanks⟩ := exists_trimStart text
    obtain ⟨tail, hend, htail⟩ := exists_dropEndWhile isBlank (trimStart text)
    rw [← trimEnd, ← trim, htrim, List.nil_append] at hend
    rw [hstart, hend]
    exact List.forall_mem_append.2 ⟨hblanks, htail⟩
  · exact trim_blanks

namespace Line

/-- One of the raw lines has the index, and it holds more than blanks. -/
def Written (raws : List String) (number : Nat) : Prop :=
  ∃ raw, raws[number]? = some raw ∧ Document.isWritten raw = true

theorem Written.lt_length {raws : List String} {number : Nat} (h : Written raws number) :
    number < raws.length := by
  obtain ⟨raw, hraw, -⟩ := h
  exact (List.getElem?_eq_some_iff.1 hraw).1

/-- Nothing is left of a line of blanks. -/
theorem isWritten_of_ofRaw? {number : Nat} {raw : String} {line : Line}
    (h : ofRaw? number raw = some line) : Document.isWritten raw = true := by
  rw [Document.isWritten, Bool.not_eq_true', List.isEmpty_eq_false_iff]
  intro htrim
  have hblanks : ∀ c ∈ uncomment none raw.toList, Text.isBlank c = true :=
    fun c hc => Text.trim_eq_nil_iff.1 htrim c ((uncomment_prefix_self none raw.toList).subset hc)
  have hclean : clean raw.toList = [] := by
    rw [clean, Text.trim_blanks hblanks]
    rfl
  simp [ofRaw?, hclean] at h

theorem written_of_mem_meaningful {raws : List String} {line : Line} (h : line ∈ meaningful raws) :
    Written raws line.number := by
  obtain ⟨i, raw, hraw, hnumber, hline⟩ := exists_raw_of_mem_meaningfulFrom h
  rw [hnumber, Nat.zero_add]
  exact ⟨raw, hraw, isWritten_of_ofRaw? hline⟩

/-- The text of a meaningful line starts with no blank. -/
theorem exists_text_of_mem_meaningful {raws : List String} {line : Line}
    (h : line ∈ meaningful raws) :
    ∃ c rest, line.text.toList = c :: rest ∧ Text.isBlank c = false := by
  obtain ⟨i, raw, -, -, hline⟩ := exists_raw_of_mem_meaningfulFrom h
  have hhead : ∀ c ∈ (clean raw.toList).head?, Text.isBlank c = false := isBlank_of_head?_clean
  rw [ofRaw?] at hline
  split at hline
  · cases hline
  · next c text hclean =>
    have htext : line.text = String.ofList (c :: text) :=
      congrArg Line.text (Option.some.inj hline).symm
    exact ⟨c, text, by rw [htext, String.toList_ofList], hhead c (by rw [hclean]; rfl)⟩

/-- What cleaning leaves of a line is more than blanks. -/
theorem tokens_ne_nil_of_mem_meaningful {raws : List String} {line : Line}
    (h : line ∈ meaningful raws) : line.tokens ≠ [] := by
  obtain ⟨c, rest, htext, hc⟩ := exists_text_of_mem_meaningful h
  intro htokens
  rw [tokens, List.map_eq_nil_iff, htext] at htokens
  have hblank := Lexeme.isBlank_of_scan htokens c List.mem_cons_self
  rw [hc] at hblank
  cases hblank

end Line

/-- To attach the lines of a document changes nothing else of a fault. -/
theorem Fault.withSource_eq (fault : Fault) (lines : List String) :
    fault.withSource lines = { fault with
      source? := if fault.location?.isSome then some lines else fault.source? } := by
  rw [withSource]
  split
  · rfl
  · rfl

theorem Rule.category_eq_internal_iff {rule : Rule} {document : String} :
    rule.category document = .internal ↔ rule = .noTokens := by
  cases rule with
  | noTokens => exact iff_of_true rfl rfl
  | _ => exact iff_of_false (by simp [category]) (by simp)

namespace Document

/-- A document fails on a written line, on the first word of a definition or on what it holds; or
it has none. -/
theorem readDefinitions_error {document : Document} {violation : Violation}
    (h : document.readDefinitions = .error violation) :
    (Line.Written document.lines violation.line ∧
      (violation.rule.IsInner ∨ ∃ text, violation.rule = .unexpectedWord text)) ∨
    violation = ⟨lastLine document.lines, .noDefinitions⟩ := by
  rw [readDefinitions] at h
  cases hread : Grammar.readDefinitions [] document.header.rest with
  | error other =>
    rw [hread] at h
    cases h
    have hrest : ∀ line ∈ document.header.rest, line ∈ Line.meaningful document.lines :=
      fun line hline => (Header.read_rest_suffix _ _).subset hline
    have hwritten : Grammar.NumbersIn (Line.Written document.lines) document.header.rest :=
      fun line hline => Line.written_of_mem_meaningful (hrest line hline)
    have htokens : ∀ line ∈ document.header.rest, line.tokens ≠ [] :=
      fun line hline => Line.tokens_ne_nil_of_mem_meaningful (hrest line hline)
    exact Or.inl (Grammar.readDefinitions_error hwritten htokens hread)
  | ok definitions =>
    rw [hread] at h
    change (if definitions.isEmpty then _ else _) = _ at h
    split at h
    · cases h
      exact Or.inr rfl
    · cases h

/-- No document breaks the rule that asks for a token. -/
theorem rule_ne_noTokens {document : Document} {violation : Violation}
    (h : document.readDefinitions = .error violation) : violation.rule ≠ .noTokens := by
  intro hrule
  rcases readDefinitions_error h with ⟨-, hinner | ⟨text, htext⟩⟩ | hnone
  · rw [hrule] at hinner
    exact hinner
  · rw [hrule] at htext
    cases htext
  · rw [hnone] at hrule
    cases hrule

theorem read_eq_error_iff {document : Document} {fault : Fault} :
    document.read = .error fault ↔ ∃ violation, document.readDefinitions = .error violation ∧
      fault = (violation.fault document.name).withSource document.lines := by
  rw [read]
  cases document.readDefinitions with
  | error violation => simp [eq_comm]
  | ok definitions => simp

/-- No document is to blame for a broken rule of the program. -/
theorem read_ne_internal {document : Document} {fault : Fault}
    (h : document.read = .error fault) : fault.category ≠ .internal := by
  obtain ⟨violation, hviolation, rfl⟩ := read_eq_error_iff.1 h
  rw [Fault.withSource_eq, Violation.fault, ne_eq, Rule.category_eq_internal_iff]
  exact rule_ne_noTokens hviolation

end Document

end ThriftIdl

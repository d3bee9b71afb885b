import ThriftIdl.Proofs.Document.Reading
import ThriftIdl.Proofs.Grammar.Renumbering
import ThriftIdl.Proofs.Scanning

/-!
Where a header ends. It ends before the first line that is no directive, so a line that starts a
definition ends it. What it says does not depend on line numbers.
-/

namespace ThriftIdl

namespace Text

/-- The first field of a text starts with the word that the text starts with. -/
theorem exists_fields_append {word : List Char} (hne : word ≠ [])
    (hword : ∀ c ∈ word, isBlank c = false) (rest : List Char) :
    ∃ tail more, fields (word ++ rest) = (word ++ tail) :: more := by
  induction word with
  | nil => exact absurd rfl hne
  | cons c word ih =>
    rw [List.forall_mem_cons] at hword
    rw [List.cons_append, fields, if_neg (by simp [hword.1])]
    cases word with
    | nil =>
      rw [List.nil_append]
      split
      · next field more _ _ => exact ⟨field, more, rfl⟩
      · next more _ _ => exact ⟨[], fields rest, rfl⟩
    | cons d word =>
      obtain ⟨tail, more, hfields⟩ := ih (List.cons_ne_nil d word) hword.2
      have hd := hword.2 d List.mem_cons_self
      rw [hfields]
      simp only [List.cons_append, List.head?_cons, Option.any_some, hd, Bool.not_false]
      exact ⟨tail, more, rfl⟩

end Text

namespace Lexeme

theorem nest_of_plain {c : Char} (h : c ≠ '<' ∧ c ≠ '[') : nest [] c = [] := by
  simp [nest, h]

/-- What follows a word without brackets ends it. -/
theorem splitWord_of_plain {rest : List Char}
    (hword : ∀ c ∈ (splitWord [] rest).1, c ≠ '<' ∧ c ≠ '[') :
    (splitWord [] rest).1 ++ (splitWord [] rest).2 = rest ∧
      ∀ c ∈ (splitWord [] rest).2.head?, endsWord c = true := by
  induction rest with
  | nil => exact ⟨rfl, by simp [splitWord]⟩
  | cons c rest ih =>
    rw [splitWord_cons] at hword ⊢
    by_cases hends : endsWord c = true
    · simp [hends]
    · rw [if_neg (by simp [hends]), if_neg (by simp)] at hword ⊢
      rw [List.forall_mem_cons] at hword
      rw [nest_of_plain hword.1] at hword ⊢
      obtain ⟨happend, hhead⟩ := ih hword.2
      exact ⟨by rw [List.cons_append, happend], hhead⟩

/-- A text that starts with no blank and whose first lexeme is a word without brackets is this word
and what ends it. -/
theorem exists_of_scan_word {text : List Char} {word : String} {more : List Lexeme}
    (hstart : ∀ c ∈ text.head?, Text.isBlank c = false)
    (hword : ∀ c ∈ word.toList, c ≠ '<' ∧ c ≠ '[') (h : scan text = .word word :: more) :
    ∃ rest, text = word.toList ++ rest ∧ ∀ c ∈ rest.head?, endsWord c = true := by
  cases text with
  | nil =>
    rw [scan_nil] at h
    cases h
  | cons c rest =>
    have hblank := hstart c rfl
    rw [scan, if_neg (by simp [hblank])] at h
    split at h
    · cases h
    · split at h
      · cases h
      · cases h
        rw [String.toList_ofList, List.forall_mem_cons] at hword
        rw [nest_of_plain hword.1] at hword ⊢
        obtain ⟨happend, hhead⟩ := splitWord_of_plain hword.2
        refine ⟨_, ?_, hhead⟩
        rw [String.toList_ofList, List.cons_append, happend]

end Lexeme

/-- The remark on another line. -/
def Notice.renumber (f : Nat → Nat) (notice : Notice) : Notice :=
  { notice with line := f notice.line }

namespace Header

/-- The header with its lines renumbered. -/
def renumber (f : Nat → Nat) (header : Header) : Header :=
  ⟨header.namespaces, header.notices.map (Notice.renumber f), header.rest.map (Line.renumber f)⟩

theorem ofWord?_eq_none_of_prefix {kind : Kind} {word : List Char} (h : kind.word.toList <+: word) :
    Directive.ofWord? (String.ofList word) = none := by
  have hall : ∀ directive ∈ Directive.all, ∀ kind ∈ Kind.all,
      ¬kind.word.toList <+: directive.word.toList := by decide
  rw [Option.eq_none_iff_forall_ne_some]
  intro directive hdirective
  have hmem : directive ∈ Directive.all := by cases directive <;> decide
  apply hall directive hmem kind (Kind.mem_all kind)
  rw [Directive.ofWord?_eq_some_iff.1 hdirective, String.toList_ofList]
  exact h

/-- A line whose first lexeme opens a definition is no directive. -/
theorem effect?_of_scan {text : List Char} {kind : Kind} {more : List Lexeme}
    (hstart : ∀ c ∈ text.head?, Text.isBlank c = false)
    (h : Lexeme.scan text = .word kind.word :: more) :
    effect? (Text.fieldsOf (String.ofList text)) = none := by
  have hkinds : ∀ kind ∈ Kind.all, kind.word.toList ≠ [] ∧
      kind.word.toList.all (fun c => c != '<' && c != '[') = true ∧
      kind.word.toList.all (!Text.isBlank ·) = true := by decide
  obtain ⟨hne, hplain, hall⟩ := hkinds kind (Kind.mem_all kind)
  have hblank : ∀ c ∈ kind.word.toList, Text.isBlank c = false := by simpa using hall
  obtain ⟨rest, htext, -⟩ := Lexeme.exists_of_scan_word hstart (by simpa using hplain) h
  obtain ⟨tail, fields, hfields⟩ := Text.exists_fields_append hne hblank rest
  have hdirective := ofWord?_eq_none_of_prefix (List.prefix_append kind.word.toList tail)
  rw [Text.fieldsOf, String.toList_ofList, htext, hfields, List.map_cons]
  simp only [effect?, hdirective]

/-- Lines that do not end a header belong to it; else it ends where they end it. -/
theorem rest_append (table : Table String) (lines more : List Line) :
    (read table (lines ++ more)).rest =
      if (read table lines).rest = [] then (read table more).rest
      else (read table lines).rest ++ more := by
  induction lines generalizing table with
  | nil => rfl
  | cons line lines ih =>
    rw [List.cons_append]
    cases heffect : effect? (Text.fieldsOf line.text) with
    | none => simp [read, heffect]
    | some effect =>
      cases effect with
      | setNamespace target name =>
        simp only [read, heffect]
        rw [ih, (read_notices_rest (table.insert target name) table more).2]
      | remark remark =>
        simp only [read, heffect]
        exact ih table

/-- Renumbered lines have the same header with its lines renumbered. -/
theorem read_renumber (f : Nat → Nat) (table : Table String) (lines : List Line) :
    read table (lines.map (Line.renumber f)) = (read table lines).renumber f := by
  induction lines generalizing table with
  | nil => rfl
  | cons line lines ih =>
    rw [List.map_cons]
    have htext : (line.renumber f).text = line.text := rfl
    cases heffect : effect? (Text.fieldsOf line.text) with
    | none => simp only [read, htext, heffect, renumber, List.map_nil, List.map_cons]
    | some effect =>
      cases effect with
      | setNamespace target name =>
        simp only [read, htext, heffect]
        exact ih _
      | remark remark =>
        simp only [read, htext, heffect, ih]
        rfl

theorem rest_renumber (f : Nat → Nat) (table : Table String) (lines : List Line) :
    (read table (lines.map (Line.renumber f))).rest =
      (read table lines).rest.map (Line.renumber f) := by
  rw [read_renumber, renumber]

end Header

end ThriftIdl

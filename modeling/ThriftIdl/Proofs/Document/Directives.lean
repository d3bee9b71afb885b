import Mathlib.Data.List.Basic
import ThriftIdl.Document.Reading

/-!
The directives of a document. A header reads the longest run of lines at the start whose first field
is a directive, and remarks on those it skips.
-/

namespace ThriftIdl

namespace Header

/-- The directive that is the first of the fields, if one is. -/
def directive? (fields : List String) : Option Directive := fields.head?.bind Directive.ofWord?

/-- The lines up to the first whose first field is no directive. -/
def directives (lines : List Line) : List Line :=
  lines.takeWhile fun line => (directive? (Text.fieldsOf line.text)).isSome

/-- What is wrong with a directive of the fields: it is no namespace, or a namespace without
exactly three fields. -/
def remark? (fields : List String) : Option Remark :=
  match directive? fields with
  | none => none
  | some .namespaceOf => if fields.length = 3 then none else some (.malformed fields.length)
  | some directive => some (.ignored directive)

/-- The three things a line can do in a header: it ends the header, it is a namespace with exactly
three fields, or it is remarked on. -/
theorem effect?_cases (fields : List String) :
    (effect? fields = none ∧ directive? fields = none) ∨
    (∃ target name, effect? fields = some (.setNamespace target name) ∧
      fields = [Directive.namespaceOf.word, target, name]) ∨
    ∃ remark, effect? fields = some (.remark remark) ∧ (directive? fields).isSome = true ∧
      remark? fields = some remark := by
  fun_cases effect? fields with
  | case1 => exact Or.inl ⟨rfl, rfl⟩
  | case2 word rest hword => exact Or.inl ⟨rfl, hword⟩
  | case3 word target name hword =>
    exact Or.inr (Or.inl ⟨target, name, rfl, by rw [Directive.ofWord?_eq_some_iff.1 hword]⟩)
  | case4 word rest hrest hword =>
    have hdirective : directive? (word :: rest) = some .namespaceOf := hword
    have hlength : (word :: rest).length ≠ 3 := by
      intro hlength
      obtain ⟨target, name, rfl⟩ := List.length_eq_two.1 (Nat.succ.inj hlength)
      exact hrest target name rfl
    refine Or.inr (Or.inr ⟨_, rfl, by rw [hdirective]; rfl, ?_⟩)
    simp only [remark?, hdirective]
    rw [if_neg hlength, List.length_cons]
  | case5 word rest directive hother hword =>
    have hdirective : directive? (word :: rest) = some directive := hword
    refine Or.inr (Or.inr ⟨_, rfl, by rw [hdirective]; rfl, ?_⟩)
    cases directive with
    | namespaceOf => exact absurd rfl hother
    | includeFile => simp only [remark?, hdirective]
    | cppInclude => simp only [remark?, hdirective]

/-- A header remarks on its directives, in line order. -/
theorem notices_read (table : Table String) (lines : List Line) :
    (read table lines).notices = (directives lines).filterMap fun line =>
      (remark? (Text.fieldsOf line.text)).map (⟨line.number, ·⟩) := by
  induction lines generalizing table with
  | nil => rfl
  | cons line lines ih =>
    rw [directives, List.takeWhile_cons]
    rcases effect?_cases (Text.fieldsOf line.text) with
      ⟨heffect, hnone⟩ | ⟨target, name, heffect, hfields⟩ | ⟨remark, heffect, hsome, hremark⟩
    · simp [read, heffect, hnone]
    · have hdirective : directive? (Text.fieldsOf line.text) = some .namespaceOf := by
        rw [hfields]
        rfl
      have hremark : remark? (Text.fieldsOf line.text) = none := by
        rw [hfields]
        rfl
      rw [hdirective, Option.isSome_some, if_pos rfl, List.filterMap_cons, hremark]
      simp only [read, heffect]
      exact ih (table.insert target name)
    · rw [if_pos hsome, List.filterMap_cons, hremark]
      simp only [read, heffect]
      exact congrArg _ (ih table)

end Header

/-- The warnings on a document by its name and text: one for each directive that is skipped, with
its place and the lines of the document. -/
def Document.remarks (name source : String) : List Warning :=
  (Header.directives (Line.meaningful (Text.linesOf source))).filterMap fun line =>
    (Header.remark? (Text.fieldsOf line.text)).map fun remark =>
      ⟨⟨name, line.number⟩, remark.text, some (Text.linesOf source)⟩

theorem Document.warnings_ofSource (name source : String) :
    (Document.ofSource name source).warnings = Document.remarks name source := by
  rw [warnings, header, Header.notices_read, List.map_filterMap, remarks]
  simp only [Option.map_map]
  rfl

/-- Neither a namespace with its three fields nor a directive after the header is remarked on. -/
example : (Document.remarks "a.thrift"
      "namespace go\n# blank\ncpp_include \"b.h\"\nnamespace go a\nconst i32 X = 1\ninclude").map
        (fun warning => (warning.location, warning.message)) = [
    (⟨"a.thrift", 0⟩,
      "expected `namespace <target> <name>` but found 2 fields; directive skipped"),
    (⟨"a.thrift", 2⟩, "cpp_include directives are not supported and were ignored")] := by
  decide +kernel

end ThriftIdl

import ThriftIdl.Proofs.Document.Directives
import ThriftIdl.Proofs.Grammar.Lines
import ThriftIdl.Proofs.Grammar.Stages
import ThriftIdl.Proofs.Header
import ThriftIdl.Proofs.Text

/-!
Documents one after the other. A definition takes its own lines and no others, and of the
definitions before it only their names count. So lines that follow those of a document are read as
on their own, if they start no directive and declare no name again.
-/

namespace ThriftIdl

namespace Grammar

variable {α β : Type}

/-- On top of the definitions taken, the reading gives what it gives without them, if the name it
declares is new. -/
def OnTop (name : α → String) (taken : List Definition) (reading bare : Reading α) : Prop :=
  ∀ result, reading = .ok result ↔ bare = .ok result ∧ name result ∉ taken.map (·.name)

section OnTop

variable {taken : List Definition}

/-- What is read after a name was declared does not change whether it is new. -/
theorem OnTop.bind {name : α → String} {other : β → String} {reading bare : Reading α}
    {next : α → Reading β} (h : OnTop name taken reading bare)
    (hname : ∀ value result, next value = .ok result → other result = name value) :
    OnTop other taken (reading >>= next) (bare >>= next) := by
  intro result
  rw [bind_eq_ok, bind_eq_ok]
  constructor
  · rintro ⟨value, hvalue, hresult⟩
    obtain ⟨hbare, hnew⟩ := (h value).1 hvalue
    rw [hname value result hresult]
    exact ⟨⟨value, hbare, hresult⟩, hnew⟩
  · rintro ⟨⟨value, hbare, hresult⟩, hnew⟩
    rw [hname value result hresult] at hnew
    exact ⟨value, (h value).2 ⟨hbare, hnew⟩, hresult⟩

/-- A rule that is broken whatever was taken is no matter of names. -/
theorem onTop_error (name : α → String) (violation : Violation) :
    OnTop name taken (.error violation) (.error violation) := by
  intro result
  simp

theorem declare_onTop (word : Word) :
    OnTop Declared.name taken (declare taken word) (declare [] word) := by
  intro declared
  rw [declare_eq_ok_iff, declare_eq_ok_iff]
  constructor
  · rintro ⟨hvalid, hnew, rfl⟩
    exact ⟨⟨hvalid, List.not_mem_nil, rfl⟩, hnew⟩
  · rintro ⟨⟨hvalid, -, rfl⟩, hnew⟩
    exact ⟨hvalid, hnew, rfl⟩

theorem readConst_onTop (start : Nat) (tokens : List Token) :
    OnTop Definition.name taken (readConst taken start tokens) (readConst [] start tokens) := by
  rw [readConst.eq_def, readConst.eq_def]
  dsimp only
  split
  · split
    · apply (declare_onTop _).bind
      rintro declared definition ⟨⟩
      rfl
    · exact onTop_error _ _
  · exact onTop_error _ _

theorem readTypedef_onTop (start : Nat) (tokens : List Token) :
    OnTop Definition.name taken (readTypedef taken start tokens)
      (readTypedef [] start tokens) := by
  rw [readTypedef.eq_def, readTypedef.eq_def]
  split
  · apply (declare_onTop _).bind
    rintro declared definition ⟨⟩
    rfl
  · exact onTop_error _ _

theorem readBlockName_onTop (kind : Kind) (start : Nat) (tokens : List Token) :
    OnTop (·.1.name) taken (readBlockName kind taken start tokens)
      (readBlockName kind [] start tokens) := by
  rw [readBlockName.eq_def, readBlockName.eq_def]
  split
  · apply (declare_onTop _).bind
    rintro declared pair ⟨⟩
    rfl
  · exact onTop_error _ _

theorem readBlockDefinition_onTop (kind : Kind) (start : Nat) (tokens : List Token)
    (lines : List Line) :
    OnTop (·.definition.name) taken (readBlockDefinition kind taken start tokens lines)
      (readBlockDefinition kind [] start tokens lines) := by
  rw [readBlockDefinition_eq, readBlockDefinition_eq]
  apply (readBlockName_onTop kind start tokens).bind
  rintro ⟨declared, rest⟩ extent hextent
  obtain ⟨_, _, hextent⟩ := bind_eq_ok.1 hextent
  obtain ⟨_, _, hextent⟩ := bind_eq_ok.1 hextent
  obtain ⟨_, _, hextent⟩ := bind_eq_ok.1 hextent
  cases hextent
  rfl

/-- Of the definitions before it a definition must only not repeat the name. -/
theorem readDefinition_onTop (line : Line) (lines : List Line) :
    OnTop (·.definition.name) taken (readDefinition taken line lines)
      (readDefinition [] line lines) := by
  rw [readDefinition.eq_def, readDefinition.eq_def]
  split
  · exact onTop_error _ _
  · split
    · split
      · exact onTop_error _ _
      · apply (readConst_onTop line.number _).bind
        rintro definition extent ⟨⟩
        rfl
      · apply (readTypedef_onTop line.number _).bind
        rintro definition extent ⟨⟩
        rfl
      · exact readBlockDefinition_onTop _ line.number _ lines
    · exact onTop_error _ _

end OnTop

/-- The first definition of the lines is read as the first of all, and the others on top of it. -/
theorem readDefinitions_cons_eq_ok_iff {taken result : List Definition} {line : Line}
    {lines : List Line} :
    readDefinitions taken (line :: lines) = .ok result ↔
      ∃ extent, readDefinition [] line lines = .ok extent ∧
        extent.definition.name ∉ taken.map (·.name) ∧
        readDefinitions (taken ++ [extent.definition]) (lines.drop extent.used) = .ok result := by
  rw [readDefinitions, bind_eq_ok]
  constructor
  · rintro ⟨extent, hextent, hresult⟩
    obtain ⟨hbare, hnew⟩ := (readDefinition_onTop line lines extent).1 hextent
    exact ⟨extent, hbare, hnew, hresult⟩
  · rintro ⟨extent, hbare, hnew, hresult⟩
    exact ⟨extent, (readDefinition_onTop line lines extent).2 ⟨hbare, hnew⟩, hresult⟩

/-- Definitions are read after others as on their own, if they declare none of their names. -/
theorem readDefinitions_eq_ok_iff {taken result : List Definition} {lines : List Line} :
    readDefinitions taken lines = .ok result ↔
      ∃ own, readDefinitions [] lines = .ok own ∧
        (∀ definition ∈ own, definition.name ∉ taken.map (·.name)) ∧ result = taken ++ own := by
  -- What follows the first definition is shorter. On both sides it is read on top of that one.
  induction hlength : lines.length using Nat.strongRecOn generalizing taken result lines with
  | _ n ih =>
    cases lines with
    | nil =>
      rw [readDefinitions, readDefinitions, Except.ok.injEq]
      constructor
      · rintro rfl
        exact ⟨[], rfl, by simp, (List.append_nil _).symm⟩
      · rintro ⟨own, ⟨⟩, -, rfl⟩
        exact (List.append_nil _).symm
    | cons line lines =>
      have hlater : ∀ used (before found : List Definition),
          readDefinitions before (lines.drop used) = .ok found ↔
            ∃ own, readDefinitions [] (lines.drop used) = .ok own ∧
              (∀ definition ∈ own, definition.name ∉ before.map (·.name)) ∧
              found = before ++ own := by
        intro used before found
        apply ih (lines.drop used).length _ rfl
        rw [← hlength, List.length_drop, List.length_cons]
        omega
      rw [readDefinitions_cons_eq_ok_iff]
      simp only [readDefinitions_cons_eq_ok_iff]
      constructor
      · rintro ⟨extent, hextent, hnew, hresult⟩
        obtain ⟨own, hown, hapart, rfl⟩ := (hlater _ _ _).1 hresult
        simp only [List.map_append, List.mem_append, not_or] at hapart
        refine ⟨extent.definition :: own, ⟨extent, hextent, List.not_mem_nil, ?_⟩, ?_, ?_⟩
        · exact (hlater _ _ _).2 ⟨own, hown, fun other hother => (hapart other hother).2, rfl⟩
        · rw [List.forall_mem_cons]
          exact ⟨hnew, fun other hother => (hapart other hother).1⟩
        · rw [List.append_assoc]
          rfl
      · rintro ⟨_, ⟨extent, hextent, -, hresult⟩, hapart, rfl⟩
        obtain ⟨own, hown, hfirst, rfl⟩ := (hlater _ _ _).1 hresult
        rw [List.nil_append, List.singleton_append, List.forall_mem_cons] at hapart
        refine ⟨extent, hextent, hapart.1, (hlater _ _ _).2 ⟨own, hown, ?_, ?_⟩⟩
        · intro other hother
          rw [List.map_append, List.mem_append, not_or]
          exact ⟨hapart.2 other hother, hfirst other hother⟩
        · rw [List.nil_append, List.append_assoc]

theorem Stage.eq_between_of_finish {stage : Stage} {definitions : List Definition}
    (h : stage.finish = .ok definitions) : stage = .between definitions := by
  cases stage with
  | between taken =>
    cases h
    rfl
  | awaiting pending => cases h
  | inside pending depth tokens => cases h

/-- After lines that are read to definitions, reading stands between definitions. -/
theorem Stage.after_of_run {stage : Stage} {lines : List Line} {definitions : List Definition}
    (h : stage.run lines = .ok definitions) : stage.after lines = .ok (.between definitions) := by
  rw [← List.append_nil lines, run_append] at h
  obtain ⟨last, hafter, hfinish⟩ := bind_eq_ok.1 h
  rw [hafter, eq_between_of_finish hfinish]

/-- Lines that are read to definitions leave nothing of themselves to the lines after them. -/
theorem readDefinitions_append {taken definitions : List Definition} {lines : List Line}
    (h : readDefinitions taken lines = .ok definitions) (more : List Line) :
    readDefinitions taken (lines ++ more) = readDefinitions definitions more := by
  rw [readDefinitions_eq_run] at h
  rw [readDefinitions_eq_run, readDefinitions_eq_run, Stage.run_append, Stage.after_of_run h]
  rfl

theorem ne_nil_of_readDefinitions {taken definitions : List Definition} {line : Line}
    {lines : List Line} (h : readDefinitions taken (line :: lines) = .ok definitions) :
    definitions ≠ [] := by
  obtain ⟨extent, -, -, h⟩ := readDefinitions_cons_eq_ok_iff.1 h
  obtain ⟨own, -, -, rfl⟩ := readDefinitions_eq_ok_iff.1 h
  simp

/-- Lines are read after others as on their own, but their definitions stand after those of the
others and must not repeat their names. -/
theorem readDefinitions_append_eq_ok_iff {first : List Definition} {lines more : List Line}
    (h : readDefinitions [] lines = .ok first) {result : List Definition} :
    readDefinitions [] (lines ++ more) = .ok result ↔
      ∃ second, readDefinitions [] more = .ok second ∧
        (∀ definition ∈ second, definition.name ∉ first.map (·.name)) ∧
        result = first ++ second := by
  rw [readDefinitions_append h, readDefinitions_eq_ok_iff]

/-- Renumbered lines are read to definitions exactly if the lines are, and to the same ones
renumbered. -/
theorem readDefinitions_map_renumber_eq_ok_iff (f : Nat → Nat) {lines : List Line}
    {result : List Definition} :
    readDefinitions [] (lines.map (Line.renumber f)) = .ok result ↔
      ∃ own, readDefinitions [] lines = .ok own ∧ result = own.map (Definition.renumber f) := by
  have hrenumber := readDefinitions_renumber (f := f) [] lines
  rw [List.map_nil] at hrenumber
  rw [hrenumber]
  cases readDefinitions [] lines with
  | error violation => simp
  | ok own => simp [eq_comm]

end Grammar

/-- The lines after others are numbered on from them. -/
theorem Line.meaningful_append (lines more : List String) :
    meaningful (lines ++ more) =
      meaningful lines ++ (meaningful more).map (Line.renumber (lines.length + ·)) := by
  have hrest := meaningfulFrom_renumber (lines.length + ·) 0 (0 + lines.length) more
    (by omega)
  rw [meaningful, meaningfulFrom_append, ← hrest]
  rfl

namespace Header

/-- A header that one of the lines ends is not changed by lines after them. -/
theorem read_append {table : Table String} {lines : List Line}
    (h : (read table lines).rest ≠ []) (more : List Line) :
    read table (lines ++ more) =
      { read table lines with rest := (read table lines).rest ++ more } := by
  induction lines generalizing table with
  | nil => exact absurd rfl h
  | cons line lines ih =>
    rw [List.cons_append]
    cases heffect : effect? (Text.fieldsOf line.text) with
    | none => simp only [read, heffect, List.cons_append]
    | some effect =>
      cases effect with
      | setNamespace target name =>
        simp only [read, heffect] at h ⊢
        exact ih h
      | remark remark =>
        simp only [read, heffect] at h ⊢
        rw [ih h]

/-- Lines that start with no directive have no header. -/
theorem read_of_directive? {line : Line} (h : directive? (Text.fieldsOf line.text) = none)
    (table : Table String) (lines : List Line) :
    read table (line :: lines) = ⟨table, [], line :: lines⟩ := by
  rcases effect?_cases (Text.fieldsOf line.text) with
    ⟨heffect, -⟩ | ⟨target, name, -, hfields⟩ | ⟨remark, -, hsome, -⟩
  · simp only [read, heffect]
  · rw [hfields] at h
    cases h
  · rw [h] at hsome
    cases hsome

end Header

namespace Document

/-- The document with other lines, not read yet. -/
def withLines (document : Document) (lines : List String) : Document :=
  { document with lines := lines }

section Append

variable {document first : Document} {lines more : List String} {line : Line}

/-- The header of a document that was read is not changed by lines after it. -/
theorem header_withLines_append (hfirst : (document.withLines lines).read = .ok first)
    (more : List String) :
    (document.withLines (lines ++ more)).header = {
      (document.withLines lines).header with
      rest := (document.withLines lines).header.rest ++
        (Line.meaningful more).map (Line.renumber (lines.length + ·)) } := by
  obtain ⟨definitions, hdefinitions, -⟩ := read_eq_ok_iff.1 hfirst
  obtain ⟨hrun, hne⟩ := readDefinitions_eq_ok_iff.1 hdefinitions
  have hrest : (document.withLines lines).header.rest ≠ [] := by
    intro hnil
    rw [hnil, Grammar.readDefinitions] at hrun
    cases hrun
    exact hne rfl
  rw [header, withLines, Line.meaningful_append]
  exact Header.read_append hrest _

/-- A document whose lines start with no directive has no header. -/
theorem header_withLines_of_directive? (document : Document)
    (hline : (Line.meaningful more).head? = some line)
    (hdirective : Header.directive? (Text.fieldsOf line.text) = none) :
    (document.withLines more).header = ⟨document.namespaces, [], Line.meaningful more⟩ := by
  obtain ⟨others, hmore⟩ := List.head?_eq_some_iff.1 hline
  rw [header, withLines, hmore]
  exact Header.read_of_directive? hdirective _ _

/-- The definitions of a document and of the lines that follow it. -/
theorem readDefinitions_withLines_append_iff (hfirst : (document.withLines lines).read = .ok first)
    (hline : (Line.meaningful more).head? = some line)
    (hdirective : Header.directive? (Text.fieldsOf line.text) = none)
    {definitions : List Definition} :
    (document.withLines (lines ++ more)).readDefinitions = .ok definitions ↔
      ∃ second, (document.withLines more).readDefinitions = .ok second ∧
        (∀ definition ∈ second, definition.name ∉ first.definitions.map (·.name)) ∧
        definitions = first.definitions ++
          second.map (Definition.renumber (lines.length + ·)) := by
  have hjoined := header_withLines_append hfirst more
  have hown := header_withLines_of_directive? document hline hdirective
  obtain ⟨before, hbefore, rfl⟩ := read_eq_ok_iff.1 hfirst
  obtain ⟨hbefore, hne⟩ := readDefinitions_eq_ok_iff.1 hbefore
  rw [readDefinitions_eq_ok_iff, hjoined, Grammar.readDefinitions_append_eq_ok_iff hbefore]
  constructor
  · rintro ⟨⟨_, hnumbered, hapart, rfl⟩, -⟩
    obtain ⟨second, hsecond, rfl⟩ :=
      (Grammar.readDefinitions_map_renumber_eq_ok_iff _).1 hnumbered
    rw [List.forall_mem_map] at hapart
    refine ⟨second, readDefinitions_eq_ok_iff.2 ⟨?_, ?_⟩, hapart, rfl⟩
    · rw [hown]
      exact hsecond
    · obtain ⟨others, hmore⟩ := List.head?_eq_some_iff.1 hline
      rw [hmore] at hsecond
      exact Grammar.ne_nil_of_readDefinitions hsecond
  · rintro ⟨second, hsecond, hapart, rfl⟩
    obtain ⟨hsecond, -⟩ := readDefinitions_eq_ok_iff.1 hsecond
    rw [hown] at hsecond
    refine ⟨⟨second.map (Definition.renumber (lines.length + ·)), ?_, ?_, rfl⟩, ?_⟩
    · exact (Grammar.readDefinitions_map_renumber_eq_ok_iff _).2 ⟨second, hsecond, rfl⟩
    · rw [List.forall_mem_map]
      exact hapart
    · exact List.append_ne_nil_of_left_ne_nil hne _

/-- The lines that follow a document are read after it as on their own, if they start with no
directive and repeat no name of it. The namespaces are those of the document, and the definitions
those of the document and then of the lines, whose numbers go on after its last. -/
theorem read_append_iff (hfirst : (document.withLines lines).read = .ok first)
    (hline : (Line.meaningful more).head? = some line)
    (hdirective : Header.directive? (Text.fieldsOf line.text) = none) (result : Document) :
    (document.withLines (lines ++ more)).read = .ok result ↔
      ∃ second, (document.withLines more).read = .ok second ∧
        (∀ definition ∈ second.definitions,
          definition.name ∉ first.definitions.map (·.name)) ∧
        result = {
          name := document.name
          lines := lines ++ more
          namespaces := first.namespaces
          definitions := first.definitions ++
            second.definitions.map (Definition.renumber (lines.length + ·)) } := by
  have hnamespaces : (document.withLines (lines ++ more)).header.namespaces =
      first.namespaces := by
    obtain ⟨before, -, rfl⟩ := read_eq_ok_iff.1 hfirst
    rw [header_withLines_append hfirst more]
  rw [read_eq_ok_iff, hnamespaces]
  simp only [readDefinitions_withLines_append_iff hfirst hline hdirective]
  constructor
  · rintro ⟨_, ⟨definitions, hdefinitions, hapart, rfl⟩, rfl⟩
    exact ⟨_, read_eq_ok_iff.2 ⟨definitions, hdefinitions, rfl⟩, hapart, rfl⟩
  · rintro ⟨second, hsecond, hapart, rfl⟩
    obtain ⟨definitions, hdefinitions, rfl⟩ := read_eq_ok_iff.1 hsecond
    exact ⟨_, ⟨definitions, hdefinitions, hapart, rfl⟩, rfl⟩

end Append

/-- The lines of a document whose block opens on a line of its own. -/
def pointLines : List String :=
  ["namespace go geo", "struct Point", "\x7b", "  1: i32 x", "\x7d"]

/-- The document as it is read from the lines. -/
def point : Document where
  name := "point.thrift"
  lines := pointLines
  namespaces := [("default", "point"), ("go", "geo")]
  definitions := [⟨⟨"Point", 1⟩, .struct [⟨1, .unstated, "i32", "x", none, 3⟩]⟩]

/-- The lines of a constant below a comment. -/
def originLines : List String := ["# shared", "", "const i32 ORIGIN = 0"]

/-- Below the lines of the struct the constant is on the eighth line. -/
theorem read_append_iff_point :
    ((ofSource "point.thrift" "").withLines pointLines).read = .ok point ∧
    ((ofSource "point.thrift" "").withLines (pointLines ++ originLines)).read = .ok {
      name := "point.thrift"
      lines := pointLines ++ originLines
      namespaces := point.namespaces
      definitions := point.definitions ++ [⟨⟨"ORIGIN", 7⟩, .const "i32" "0"⟩] } := by
  have hfirst : ((ofSource "point.thrift" "").withLines pointLines).read = .ok point := by
    decide +kernel
  have hsecond : ((ofSource "point.thrift" "").withLines originLines).read = .ok {
      (ofSource "point.thrift" "").withLines originLines with
      definitions := [⟨⟨"ORIGIN", 2⟩, .const "i32" "0"⟩] } := by
    decide +kernel
  have hline : (Line.meaningful originLines).head? = some ⟨2, "const i32 ORIGIN = 0"⟩ := by
    decide +kernel
  have hdirective : Header.directive? (Text.fieldsOf "const i32 ORIGIN = 0") = none := by
    decide +kernel
  refine ⟨hfirst, (read_append_iff hfirst hline hdirective _).2 ⟨_, hsecond, ?_, rfl⟩⟩
  decide +kernel

end Document

end ThriftIdl

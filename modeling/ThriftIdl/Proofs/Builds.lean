import ThriftIdl.Builder
import ThriftIdl.Proofs.Calls
import ThriftIdl.Proofs.Document.Directives

/-!
Builds, one after the other. A build does not depend on those before it, and the warnings that are
handed out after it are on the directives its documents skip.
-/

namespace ThriftIdl.Builder

/-- The texts in the order of their names. -/
def byName (texts : List (String × String)) : List (String × String) :=
  texts.mergeSort fun left right => decide (left.1 ≤ right.1)

/-- The warnings on documents by name and text. If no name stands twice they are on those up to
and including the first, by name, that cannot be read; else no document is read. -/
def warningsOn (texts : List (String × String)) : List Warning :=
  if (texts.map Prod.fst).Nodup then
    (Steps.attempted (fun text => (Document.ofSource text.1 text.2).read.isOk)
      (byName texts)).flatMap fun text => Document.remarks text.1 text.2
  else []

/-- A call on a builder. -/
inductive Call where
  | build (texts : List (String × String))
  | drain

/-- The builder after a call. -/
def step (builder : Builder) : Call → Builder
  | .build texts => (builder.buildTexts texts).2
  | .drain => builder.drain.2

/-- The builder after calls, one after the other. -/
def run (builder : Builder) (calls : List Call) : Builder := calls.foldl step builder

/-- The warnings that a call leaves to be handed out. -/
def Call.due : Call → List Warning
  | .build texts => warningsOn texts
  | .drain => []

/-- The model of the texts, not parsed. -/
def unparsed (texts : List (String × String)) : Model :=
  { documents := texts.map fun text => .ofSource text.1 text.2 }

theorem map_name_unparsed (texts : List (String × String)) :
    (unparsed texts).documents.map (·.name) = texts.map Prod.fst := by
  rw [unparsed, List.map_map]
  rfl

/-- Texts make up a model exactly if no name stands twice. -/
theorem added_eq_ok_iff {texts : List (String × String)} {model : Model} :
    texts.foldlM (fun (model : Model) text => model.add text.1 text.2) Model.empty = .ok model ↔
      (texts.map Prod.fst).Nodup ∧ model = unparsed texts := by
  have hstep : ∀ text ∈ texts, ∀ (done : List Document) (result : Model),
      ({ documents := done } : Model).add text.1 text.2 = .ok result ↔
        (Document.ofSource text.1 text.2).name ∉ done.map (·.name) ∧
          result = { documents := done ++ [.ofSource text.1 text.2] } := by
    intro text _ done result
    rw [Model.add_eq_ok_iff, Model.withSource]
    exact and_iff_right rfl
  have hempty : (([] : List Document).map (·.name)).Nodup := List.nodup_nil
  rw [← map_name_unparsed]
  exact Steps.foldlM_eq_ok_iff_nodup (fun documents => ({ documents := documents } : Model))
    (fun text : String × String => Document.ofSource text.1 text.2) Document.name hstep hempty

/-- A build fails at once if a name stands twice, and else ends as parsing does. -/
theorem buildTexts_cases (builder : Builder) (texts : List (String × String)) :
    (¬(texts.map Prod.fst).Nodup ∧
      ∃ fault, builder.buildTexts texts = (.error fault, builder.cleared)) ∨
    ((texts.map Prod.fst).Nodup ∧
      builder.buildTexts texts = builder.cleared.finish (unparsed texts)) := by
  rcases hadded : texts.foldlM (fun (model : Model) text => model.add text.1 text.2)
    Model.empty with fault | model
  · refine Or.inl ⟨?_, fault, by rw [buildTexts, hadded]⟩
    intro hnames
    rw [added_eq_ok_iff.2 ⟨hnames, rfl⟩] at hadded
    cases hadded
  · obtain ⟨hnames, rfl⟩ := added_eq_ok_iff.1 hadded
    exact Or.inr ⟨hnames, by rw [buildTexts, hadded]⟩

theorem appended_unparsed {texts : List (String × String)} (h : (texts.map Prod.fst).Nodup) :
    (unparsed texts).appended = warningsOn texts := by
  have hsorted : Target.sortDocuments (unparsed texts).documents =
      (byName texts).map fun text => .ofSource text.1 text.2 := by
    rw [byName, List.map_mergeSort]
    · rfl
    · intros
      rfl
  rw [Model.appended, hsorted, Model.readAll_snd, Steps.attempted_map, List.flatMap_map,
    warningsOn, if_pos h]
  simp only [Document.warnings_ofSource, Function.comp_def]

/-- What a call leaves to be handed out does not depend on what was left before. -/
theorem warnings_step (builder : Builder) (call : Call) :
    (builder.step call).warnings = call.due := by
  cases call with
  | drain => rfl
  | build texts =>
    rw [step, Call.due]
    rcases builder.buildTexts_cases texts with ⟨hnames, fault, hbuild⟩ | ⟨hnames, hbuild⟩
    · rw [hbuild, warningsOn, if_neg hnames, cleared]
    · have hunparsed : (unparsed texts).parsed = false := rfl
      have hparse := Model.warnings_parse hunparsed
      rw [appended_unparsed hnames] at hparse
      rw [hbuild]
      exact hparse

/-- The result of a build does not depend on the warnings that were left before. -/
theorem result_buildTexts (builder : Builder) (texts : List (String × String)) :
    (builder.buildTexts texts).1 = (({} : Builder).buildTexts texts).1 := by
  rw [buildTexts, buildTexts]
  cases texts.foldlM (fun (model : Model) text => model.add text.1 text.2) Model.empty with
  | error fault => rfl
  | ok model => rfl

/-- After calls, one after the other, the warnings of the last one are left. -/
theorem warnings_run (builder : Builder) (calls : List Call) (call : Call) :
    (builder.run (calls ++ [call])).warnings = call.due := by
  rw [run, List.foldl_append]
  exact warnings_step (calls.foldl step builder) call

/-- After any calls a build ends as it does on a new builder, and the warnings that are handed out
are those on the texts of the last call, if it was a build. -/
theorem build_drain_run (calls : List Call) :
    (∀ texts, ((({} : Builder).run calls).buildTexts texts).1 =
      (({} : Builder).buildTexts texts).1) ∧
    ((({} : Builder).run calls).drain).1 = (calls.getLast?.map Call.due).getD [] := by
  constructor
  · exact result_buildTexts _
  · rcases List.eq_nil_or_concat calls with rfl | ⟨before, last, rfl⟩
    · rfl
    · rw [List.concat_eq_append, List.getLast?_concat]
      exact warnings_run {} before last

end ThriftIdl.Builder

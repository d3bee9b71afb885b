import ThriftIdl.CommandLine
import ThriftIdl.Proofs.Files
import ThriftIdl.Proofs.Restriction

/-!
What the command does without a generator. It prints nothing, its usage or the text of a model, and
it writes to no file before the model is built.
-/

namespace ThriftIdl.CommandLine

/-- The options with a value among the arguments, up to an argument that ends the options. -/
def settings : List String → List Setting
  | [] => []
  | argument :: rest =>
    match Argument.ofText argument, rest with
    | .setting setting _ (some _), rest => setting :: settings rest
    | .setting setting _ none, _ :: rest => setting :: settings rest
    | .setting setting _ none, [] => [setting]
    | .input _, rest => settings rest
    | _, _ => []

/-- The arguments make the one job the other. None of them is wrong, and none ends the options. -/
inductive Takes : Job → List String → Job → Prop
  | nil (job : Job) : Takes job [] job
  | input {job last : Job} {argument path : String} {rest : List String}
      (hinput : Argument.ofText argument = .input path)
      (hrest : Takes (job.addInput path) rest last) : Takes job (argument :: rest) last
  | attached {job next last : Job} {argument name value : String} {setting : Setting}
      {rest : List String} (hsetting : Argument.ofText argument = .setting setting name (some value))
      (hset : job.set setting value = .ok next) (hrest : Takes next rest last) :
      Takes job (argument :: rest) last
  | following {job next last : Job} {argument name value : String} {setting : Setting}
      {rest : List String} (hsetting : Argument.ofText argument = .setting setting name none)
      (hset : job.set setting value = .ok next) (hrest : Takes next rest last) :
      Takes job (argument :: value :: rest) last

/-- The arguments ask for help before any of them is wrong. -/
def AsksForHelp (arguments : List String) : Prop :=
  ∃ before argument after last, arguments = before ++ argument :: after ∧
    Takes {} before last ∧ Argument.ofText argument = .help

section Parsing

variable {job last : Job} {argument : String} {arguments before rest : List String}

theorem parseFrom_of_input {path : String} (h : Argument.ofText argument = .input path) :
    parseFrom job (argument :: rest) = parseFrom (job.addInput path) rest := by
  rw [parseFrom.eq_def]
  simp only [h]

theorem parseFrom_of_attached {setting : Setting} {name value : String}
    (h : Argument.ofText argument = .setting setting name (some value)) :
    parseFrom job (argument :: rest) = job.set setting value >>= (parseFrom · rest) := by
  rw [parseFrom.eq_def]
  simp only [h]

theorem parseFrom_of_following {setting : Setting} {name value : String}
    (h : Argument.ofText argument = .setting setting name none) :
    parseFrom job (argument :: value :: rest) = job.set setting value >>= (parseFrom · rest) := by
  rw [parseFrom.eq_def]
  simp only [h]

theorem parseFrom_of_help (h : Argument.ofText argument = .help) :
    parseFrom job (argument :: rest) = .ok .help := by
  rw [parseFrom.eq_def]
  simp only [h]

/-- What comes after arguments that were taken is parsed on top of the job they made. -/
theorem Takes.parseFrom_append (h : Takes job before last) (rest : List String) :
    parseFrom job (before ++ rest) = parseFrom last rest := by
  induction h with
  | nil job => rfl
  | input hinput _ ih => rw [List.cons_append, parseFrom_of_input hinput, ih]
  | attached hsetting hset _ ih =>
    rw [List.cons_append, parseFrom_of_attached hsetting, hset, ← ih]
    rfl
  | following hsetting hset _ ih =>
    rw [List.cons_append, List.cons_append, parseFrom_of_following hsetting, hset, ← ih]
    rfl

theorem exists_takes_of_help (h : parseFrom job arguments = .ok .help) :
    ∃ before argument after last, arguments = before ++ argument :: after ∧
      Takes job before last ∧ Argument.ofText argument = .help := by
  fun_induction parseFrom job arguments with
  | case1 job =>
    rw [Job.checked] at h
    split at h
    · cases h
    · cases h
  | case2 job argument rest hhelp => exact ⟨[], argument, rest, job, rfl, .nil job, hhelp⟩
  | case3 job argument rest name hunknown => cases h
  | case4 job argument rest hend =>
    rw [Job.checked] at h
    split at h
    · cases h
    · cases h
  | case5 job argument rest path hinput ih =>
    obtain ⟨before, found, after, last, rfl, htakes, hhelp⟩ := ih h
    exact ⟨argument :: before, found, after, last, rfl, .input hinput htakes, hhelp⟩
  | case6 job argument rest setting name value hsetting ih =>
    obtain ⟨next, hset, h⟩ := Steps.bind_eq_ok.1 h
    obtain ⟨before, found, after, last, rfl, htakes, hhelp⟩ := ih next h
    exact ⟨argument :: before, found, after, last, rfl, .attached hsetting hset htakes, hhelp⟩
  | case7 job argument setting name value rest hsetting ih =>
    obtain ⟨next, hset, h⟩ := Steps.bind_eq_ok.1 h
    obtain ⟨before, found, after, last, rfl, htakes, hhelp⟩ := ih next h
    exact ⟨argument :: value :: before, found, after, last, rfl,
      .following hsetting hset htakes, hhelp⟩
  | case8 job argument setting name hsetting => cases h

/-- Arguments ask for help exactly if they do so before any of them is wrong. -/
theorem parse_eq_help_iff : parse arguments = .ok .help ↔ AsksForHelp arguments := by
  constructor
  · exact exists_takes_of_help
  · rintro ⟨before, argument, after, last, rfl, htakes, hhelp⟩
    rw [parse, htakes.parseFrom_append, parseFrom_of_help hhelp]

theorem Job.eq_of_checked (h : job.checked = .ok (.job last)) : last = job := by
  rw [checked] at h
  split at h
  · cases h
  · cases h
    rfl

theorem Job.generator?_foldl_addInput (job : Job) (paths : List String) :
    (paths.foldl addInput job).generator? = job.generator? := by
  induction paths generalizing job with
  | nil => rfl
  | cons path paths ih => exact ih (job.addInput path)

theorem Job.generator?_of_set {setting : Setting} {value : String} {next : Job}
    (hset : job.set setting value = .ok next) (hsetting : setting ≠ .generator) :
    next.generator? = job.generator? := by
  cases setting with
  | generator => exact absurd rfl hsetting
  | input => cases hset; rfl
  | folder => cases hset; rfl
  | dump => cases hset; rfl

theorem settings_of_input {path : String} (h : Argument.ofText argument = .input path) :
    settings (argument :: rest) = settings rest := by
  rw [settings.eq_def]
  simp only [h]

theorem settings_of_attached {setting : Setting} {name value : String}
    (h : Argument.ofText argument = .setting setting name (some value)) :
    settings (argument :: rest) = setting :: settings rest := by
  rw [settings.eq_def]
  simp only [h]

theorem settings_of_following {setting : Setting} {name value : String}
    (h : Argument.ofText argument = .setting setting name none) :
    settings (argument :: value :: rest) = setting :: settings rest := by
  rw [settings.eq_def]
  simp only [h]

/-- Without an option for a generator no generator is set. -/
theorem generator?_of_parseFrom (h : parseFrom job arguments = .ok (.job last))
    (hnone : Setting.generator ∉ settings arguments) : last.generator? = job.generator? := by
  fun_induction parseFrom job arguments with
  | case1 job => rw [Job.eq_of_checked h]
  | case2 job argument rest hhelp => cases h
  | case3 job argument rest name hunknown => cases h
  | case4 job argument rest hend =>
    rw [Job.eq_of_checked h, Job.generator?_foldl_addInput]
  | case5 job argument rest path hinput ih =>
    rw [settings_of_input hinput] at hnone
    exact ih h hnone
  | case6 job argument rest setting name value hsetting ih =>
    rw [settings_of_attached hsetting, List.mem_cons, not_or] at hnone
    obtain ⟨next, hset, h⟩ := Steps.bind_eq_ok.1 h
    exact (ih next h hnone.2).trans (Job.generator?_of_set hset (Ne.symm hnone.1))
  | case7 job argument setting name value rest hsetting ih =>
    rw [settings_of_following hsetting, List.mem_cons, not_or] at hnone
    obtain ⟨next, hset, h⟩ := Steps.bind_eq_ok.1 h
    exact (ih next h hnone.2).trans (Job.generator?_of_set hset (Ne.symm hnone.1))
  | case8 job argument setting name hsetting => cases h

end Parsing

/-- The inputs have sources, all of them are added to a model, and the model is parsed. -/
def Builds (files : Files) (inputs : List String) (model : Model) : Prop :=
  ∃ sources added, Source.discover files inputs = .ok sources ∧
    sources.foldlM (fun (model : Model) source => model.addBytes source.name source.content)
      Model.empty = .ok added ∧
    added.parse.1 = .ok () ∧ model = added.parse.2.drain.2

/-- What the command has to do without a generator. The device, which holds nothing, is no file to
dump a model into. -/
structure Answers (files : Files) (arguments : List String) (outcome : Outcome) : Prop where
  output_cases : outcome.output = ByteArray.empty ∨
    (AsksForHelp arguments ∧ outcome.output = (usage ++ "\n").toUTF8) ∨
    ∃ job model, parse arguments = .ok (.job job) ∧ Builds files job.inputs model ∧
      outcome.output = (model.encode ++ "\n").toUTF8
  helps : AsksForHelp arguments → outcome.exit = 0 ∧ outcome.output = (usage ++ "\n").toUTF8
  prints : ∀ job model, parse arguments = .ok (.job job) → Builds files job.inputs model →
    (∀ path, job.dump? = some path → (files.target? path).isSome) →
    outcome.exit = 0 ∧ outcome.output = (model.encode ++ "\n").toUTF8
  dumps : ∀ job model path, parse arguments = .ok (.job job) → Builds files job.inputs model →
    job.dump? = some path → (files.target? path).isSome → files.node? path ≠ some .sink →
    outcome.files.content? path = some model.encode.toUTF8
  silent : outcome.exit ≠ 0 → outcome.output = ByteArray.empty
  untouched : (∀ job model, parse arguments = .ok (.job job) → ¬Builds files job.inputs model) →
    outcome.files = files

section Running

variable {files : Files} {inputs arguments : List String} {model : Model} {job : Job}

theorem finish_fst (builder : Builder) (added : Model) :
    (builder.finish added).1 = added.parse.1.map fun () => added.parse.2.drain.2 := rfl

theorem buildFiles_eq_ok_iff (builder : Builder) :
    (builder.buildFiles files inputs).1 = .ok model ↔ Builds files inputs model := by
  rw [Builder.buildFiles, Builds]
  cases hsources : Source.discover files inputs with
  | error error => simp
  | ok sources =>
    dsimp only
    cases hadded : sources.foldlM (fun (model : Model) source =>
        model.addBytes source.name source.content) Model.empty with
    | error error => simp [hadded]
    | ok added =>
      simp only [finish_fst]
      cases hparse : added.parse.1 with
      | error fault => simp [hadded, hparse, Except.map, Except.mapError]
      | ok done => simp [hadded, hparse, Except.map, Except.mapError, eq_comm]

theorem write?_of_dump {text path : String} {later : Files} (hpath : job.dump? = some path)
    (h : dump job text files = .ok later) : files.write? path text.toUTF8 = some later := by
  rw [dump, hpath] at h
  dsimp only at h
  split at h
  · next hwrite =>
    cases h
    exact hwrite
  · cases h

/-- Only a path that names no place for a file cannot be dumped into. -/
theorem exists_of_dump_error {text : String} {failure : Failure}
    (h : dump job text files = .error failure) :
    ∃ path, job.dump? = some path ∧ files.target? path = none := by
  rw [dump] at h
  split at h
  · cases h
  · next path hpath =>
    split at h
    · cases h
    · next hwrite =>
      rw [Files.write?, Option.map_eq_none_iff] at hwrite
      exact ⟨path, hpath, hwrite⟩

/-- A job without a model changes no file and prints nothing. -/
theorem runJob_of_not_builds (programs : Programs) (h : ∀ model, ¬Builds files job.inputs model) :
    (runJob programs files job).exit = 1 ∧
      (runJob programs files job).output = ByteArray.empty ∧
      (runJob programs files job).files = files := by
  rw [runJob]
  cases hbuild : ({} : Builder).buildFiles files job.inputs with
  | mk result builder =>
    cases result with
    | error error => exact ⟨rfl, rfl, rfl⟩
    | ok model =>
      have hok : (({} : Builder).buildFiles files job.inputs).1 = .ok model := by rw [hbuild]
      exact absurd ((buildFiles_eq_ok_iff {}).1 hok) (h model)

/-- A job with a model dumps it and prints it, or prints nothing because it cannot be dumped. -/
theorem runJob_of_builds (programs : Programs) (h : Builds files job.inputs model)
    (hnone : job.generator? = none) :
    (∃ later, dump job model.encode files = .ok later ∧
      (runJob programs files job).exit = 0 ∧
      (runJob programs files job).output = (model.encode ++ "\n").toUTF8 ∧
      (runJob programs files job).files = later) ∨
    (∃ failure, dump job model.encode files = .error failure ∧
      (runJob programs files job).exit = 1 ∧
      (runJob programs files job).output = ByteArray.empty) := by
  have hbuild := (buildFiles_eq_ok_iff {}).2 h
  rw [runJob]
  cases hresult : ({} : Builder).buildFiles files job.inputs with
  | mk result builder =>
    rw [hresult] at hbuild
    subst hbuild
    cases hdump : dump job model.encode files with
    | error failure =>
      have hdeliver : deliver programs job model files =
          (some failure, ⟨ByteArray.empty, files⟩) := by
        rw [deliver, hdump]
      refine Or.inr ⟨failure, rfl, ?_⟩
      simp only [hdeliver, and_self]
    | ok later =>
      have hdeliver : deliver programs job model files =
          (none, ⟨model.written.toUTF8, later⟩) := by
        rw [deliver, hdump, hnone]
      refine Or.inl ⟨later, rfl, ?_⟩
      simp only [hdeliver, Model.written, and_self]

theorem run_of_error (programs : Programs) {error : UsageError}
    (h : parse arguments = .error error) :
    run programs files arguments = ⟨2, ByteArray.empty, .ok [error.text, usage], files⟩ := by
  rw [run, h]

theorem run_of_help (programs : Programs) (h : parse arguments = .ok .help) :
    run programs files arguments = ⟨0, (usage ++ "\n").toUTF8, .ok [], files⟩ := by
  rw [run, h]

theorem run_of_job (programs : Programs) (h : parse arguments = .ok (.job job)) :
    run programs files arguments = runJob programs files job := by
  rw [run, h]

/-- Without help to give and without a model, it is right to print nothing and change no file. -/
theorem answers_of_nothing {outcome : Outcome} (hhelp : ¬AsksForHelp arguments)
    (hbuilds : ∀ job model, parse arguments = .ok (.job job) → ¬Builds files job.inputs model)
    (houtput : outcome.output = ByteArray.empty) (hfiles : outcome.files = files) :
    Answers files arguments outcome where
  output_cases := Or.inl houtput
  helps := fun hasks => absurd hasks hhelp
  prints := fun job model hjob hmodel => absurd hmodel (hbuilds job model hjob)
  dumps := fun job model _ hjob hmodel => absurd hmodel (hbuilds job model hjob)
  silent := fun _ => houtput
  untouched := fun _ => hfiles

theorem answers_help (h : AsksForHelp arguments) (messages : Except Overflow (List String)) :
    Answers files arguments ⟨0, (usage ++ "\n").toUTF8, messages, files⟩ := by
  have hnojob : ∀ job, parse arguments ≠ .ok (.job job) := by
    intro job hjob
    rw [parse_eq_help_iff.2 h] at hjob
    cases hjob
  constructor
  · exact Or.inr (Or.inl ⟨h, rfl⟩)
  · exact fun _ => ⟨rfl, rfl⟩
  · exact fun job _ hjob => absurd hjob (hnojob job)
  · exact fun job _ _ hjob => absurd hjob (hnojob job)
  · exact fun hexit => absurd rfl hexit
  · exact fun _ => rfl

theorem answers_model (programs : Programs) (hjob : parse arguments = .ok (.job job))
    (hmodel : Builds files job.inputs model) (hnone : job.generator? = none) :
    Answers files arguments (runJob programs files job) := by
  have hunique : ∀ other found, parse arguments = .ok (.job other) →
      Builds files other.inputs found → other = job ∧ found = model := by
    intro other found hother hfound
    rw [hjob] at hother
    cases hother
    have hsame := (buildFiles_eq_ok_iff {}).2 hfound
    rw [(buildFiles_eq_ok_iff {}).2 hmodel, Except.ok.injEq] at hsame
    exact ⟨rfl, hsame.symm⟩
  have hhelp : ¬AsksForHelp arguments := by
    intro hasks
    rw [parse_eq_help_iff.2 hasks] at hjob
    cases hjob
  rcases runJob_of_builds programs hmodel hnone with
    ⟨later, hdump, hexit, houtput, hfiles⟩ | ⟨failure, hdump, hexit, houtput⟩
  · constructor
    · exact Or.inr (Or.inr ⟨job, model, hjob, hmodel, houtput⟩)
    · exact fun hasks => absurd hasks hhelp
    · intro other found hother hfound _
      obtain ⟨rfl, rfl⟩ := hunique other found hother hfound
      exact ⟨hexit, houtput⟩
    · intro other found path hother hfound hpath _ hfile
      obtain ⟨rfl, rfl⟩ := hunique other found hother hfound
      rw [hfiles]
      exact Files.content?_of_write? (write?_of_dump hpath hdump) hfile
    · exact fun hfails => absurd hexit hfails
    · exact fun hnever => absurd hmodel (hnever job model hjob)
  · obtain ⟨path, hpath, hplace⟩ := exists_of_dump_error hdump
    constructor
    · exact Or.inl houtput
    · exact fun hasks => absurd hasks hhelp
    · intro other found hother hfound hplaces
      obtain ⟨rfl, rfl⟩ := hunique other found hother hfound
      have hsome := hplaces path hpath
      rw [hplace] at hsome
      cases hsome
    · intro other found named hother hfound hnamed hsome _
      obtain ⟨rfl, rfl⟩ := hunique other found hother hfound
      rw [hpath, Option.some.injEq] at hnamed
      rw [← hnamed, hplace] at hsome
      cases hsome
    · exact fun _ => houtput
    · exact fun hnever => absurd hmodel (hnever job model hjob)

/-- Without a generator the command prints nothing, the usage that was asked for, or the text of
the model that was built, which it also dumps into the file that is asked for. It prints nothing if
it fails, and changes no file if no model is built. -/
theorem run_answers (programs : Programs) (files : Files)
    (h : Setting.generator ∉ settings arguments) :
    Answers files arguments (run programs files arguments) := by
  cases hparse : parse arguments with
  | error error =>
    rw [run_of_error programs hparse]
    refine answers_of_nothing ?_ ?_ rfl rfl
    · rw [← parse_eq_help_iff, hparse]
      simp
    · simp [hparse]
  | ok request =>
    cases request with
    | help =>
      rw [run_of_help programs hparse]
      exact answers_help (parse_eq_help_iff.1 hparse) (.ok [])
    | job job =>
      have hnone : job.generator? = none := generator?_of_parseFrom hparse h
      rw [run_of_job programs hparse]
      by_cases hbuilds : ∃ model, Builds files job.inputs model
      · obtain ⟨model, hmodel⟩ := hbuilds
        exact answers_model programs hparse hmodel hnone
      · rw [not_exists] at hbuilds
        obtain ⟨-, houtput, hfiles⟩ := runJob_of_not_builds programs hbuilds
        refine answers_of_nothing ?_ ?_ houtput hfiles
        · rw [← parse_eq_help_iff, hparse]
          simp
        · rw [hparse]
          rintro other model ⟨⟩
          exact hbuilds model

end Running

/-- The text of a document with one constant. -/
def originText : String := "const i32 ORIGIN = 0"

/-- The document as it is read. -/
def origin : Document where
  name := "origin.thrift"
  lines := [originText]
  namespaces := [("default", "origin")]
  definitions := [⟨⟨"ORIGIN", 0⟩, .const "i32" "0"⟩]

/-- A working folder with nothing but the document. -/
def originFiles : Files where
  root := .folder [("origin.thrift", .file originText.toUTF8)]
  here := []

/-- The model of the document, not parsed. -/
def originModel : Model := { documents := [.ofSource "origin.thrift" originText] }

/-- The document builds a model. -/
theorem exists_builds_origin : ∃ model, Builds originFiles ["origin.thrift"] model := by
  have hread : originModel.documents.mapM Document.read = .ok [origin] := by decide +kernel
  have hresolve : ∃ targets, Target.resolve [origin] = .ok targets := by
    rw [Target.exists_resolve_iff (by decide) (by decide) (by decide)]
    intro name _ left hleft right hright hne
    rw [List.mem_singleton.1 hleft, List.mem_singleton.1 hright] at hne
    exact absurd rfl hne
  obtain ⟨targets, htargets⟩ := hresolve
  have hparse : originModel.parse.1 = .ok () :=
    ((Model.parse_eq_ok_iff (by decide) rfl).2 ⟨hread, htargets⟩).1
  exact ⟨_, [⟨"origin.thrift", "origin.thrift", originText.toUTF8⟩], originModel, rfl, rfl, hparse,
    rfl⟩

/-- The model of the document is printed and dumped into a new file. -/
theorem run_answers_origin :
    ∃ model, Builds originFiles ["origin.thrift"] model ∧
      (run [] originFiles ["origin.thrift", "--dump-model=origin.json"]).exit = 0 ∧
      (run [] originFiles ["origin.thrift", "--dump-model=origin.json"]).output =
        (model.encode ++ "\n").toUTF8 ∧
      (run [] originFiles ["origin.thrift", "--dump-model=origin.json"]).files.content?
        "origin.json" = some model.encode.toUTF8 := by
  have hanswers := @run_answers ["origin.thrift", "--dump-model=origin.json"] [] originFiles
    (by decide)
  have hparse : parse ["origin.thrift", "--dump-model=origin.json"] =
      .ok (.job { inputs := ["origin.thrift"], dump? := some "origin.json" }) := rfl
  have hplace : (originFiles.target? "origin.json").isSome := rfl
  have hfile : originFiles.node? "origin.json" = none := rfl
  obtain ⟨model, hmodel⟩ := exists_builds_origin
  obtain ⟨hexit, houtput⟩ := hanswers.prints _ model hparse hmodel (by
    rintro path ⟨⟩
    exact hplace)
  refine ⟨model, hmodel, hexit, houtput, hanswers.dumps _ model _ hparse hmodel rfl hplace ?_⟩
  rw [hfile]
  exact nofun

end ThriftIdl.CommandLine

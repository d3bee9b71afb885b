import Mathlib.Data.List.Induction
import Mathlib.Logic.Relation
import ThriftIdl.Generator

/-!
The hand-off of a text to a process. A writer puts the text into a pipe of bounded capacity, while
the process reads from the pipe and exits; the caller waits for the process, joins the writer, and
judges how both ended. The three go on in any order.
-/

namespace ThriftIdl.HandOff

/-- The side that writes: still at it, through with the text, or stopped by a broken pipe. -/
inductive Writer where
  | writing
  | done
  | broken
deriving DecidableEq

/-- The process: it runs, with its end of the pipe open or closed, or it has exited. -/
inductive Process where
  | running (reading : Bool)
  | exited (status : ExitStatus)
deriving DecidableEq

/-- The caller: it waits for the process, it has the status and joins the writer, or it has
returned. -/
inductive Caller where
  | waiting
  | joining (status : ExitStatus)
  | returned (result : Except HandOffError Unit)

/-- The writer has ended, with the whole text written or not. -/
def Writer.delivered? : Writer → Option Bool
  | writing => none
  | done => some true
  | broken => some false

/-- The bytes not yet written, those in the pipe and those that the process has read, and how far the
three have come. -/
structure State where
  unwritten : List UInt8
  piped : List UInt8
  read : List UInt8
  writer : Writer
  process : Process
  caller : Caller

/-- The state before anything is written. -/
def State.start (payload : List UInt8) : State :=
  ⟨payload, [], [], .writing, .running true, .waiting⟩

/-- The bytes that the pipe has accepted. -/
def State.accepted (state : State) : List UInt8 := state.read ++ state.piped

/-- What one of the three may do next. Only the process can read, so the pipe is broken as soon as the
process has closed its end or exited. -/
inductive Step (capacity : Nat) : State → State → Prop
  /-- The pipe accepts as many of the next bytes as it likes and has room for. -/
  | write {state : State} {bytes rest : List UInt8} (hwriter : state.writer = .writing)
      (hopen : state.process = .running true) (hbytes : bytes ≠ [])
      (hunwritten : state.unwritten = bytes ++ rest)
      (hroom : (state.piped ++ bytes).length ≤ capacity) :
      Step capacity state { state with unwritten := rest, piped := state.piped ++ bytes }
  | finish {state : State} (hwriter : state.writer = .writing) (hunwritten : state.unwritten = []) :
      Step capacity state { state with writer := .done }
  | fail {state : State} (hwriter : state.writer = .writing) (hunwritten : state.unwritten ≠ [])
      (hclosed : state.process ≠ .running true) :
      Step capacity state { state with writer := .broken }
  | read {state : State} {bytes rest : List UInt8} (hopen : state.process = .running true)
      (hpiped : state.piped = bytes ++ rest) :
      Step capacity state { state with piped := rest, read := state.read ++ bytes }
  | close {state : State} (hopen : state.process = .running true) :
      Step capacity state { state with process := .running false }
  | exit {state : State} {reading : Bool} (status : ExitStatus)
      (hrunning : state.process = .running reading) :
      Step capacity state { state with process := .exited status }
  | wait {state : State} {status : ExitStatus} (hcaller : state.caller = .waiting)
      (hexited : state.process = .exited status) :
      Step capacity state { state with caller := .joining status }
  | join {state : State} {status : ExitStatus} {delivered : Bool}
      (hcaller : state.caller = .joining status)
      (hwriter : state.writer.delivered? = some delivered) :
      Step capacity state { state with caller := .returned (verdict delivered status) }

/-- Any number of steps. -/
abbrev Steps (capacity : Nat) : State → State → Prop := Relation.ReflTransGen (Step capacity)

/-- The state is reached in the hand-off of the text. -/
abbrev Reached (capacity : Nat) (payload : List UInt8) (state : State) : Prop :=
  Steps capacity (.start payload) state

/-- What holds all along. No byte is lost, the pipe holds no more than it can, the writer ends with the
whole text accepted or after the process no longer reads, and the caller goes by how both ended. -/
structure Invariant (capacity : Nat) (payload : List UInt8) (state : State) : Prop where
  kept : state.accepted ++ state.unwritten = payload
  bounded : state.piped.length ≤ capacity
  done : state.writer = .done → state.unwritten = []
  broken : state.writer = .broken → state.unwritten ≠ [] ∧ state.process ≠ .running true
  joining : ∀ status, state.caller = .joining status → state.process = .exited status
  returned : ∀ result, state.caller = .returned result → ∃ status delivered,
    state.process = .exited status ∧ state.writer.delivered? = some delivered ∧
      result = verdict delivered status

variable {capacity : Nat} {payload : List UInt8} {state next : State} {status : ExitStatus}

theorem invariant_start : Invariant capacity payload (.start payload) where
  kept := rfl
  bounded := Nat.zero_le capacity
  done := by simp [State.start]
  broken := by simp [State.start]
  joining := by simp [State.start]
  returned := by simp [State.start]

/-- While the process runs the caller waits for it. -/
theorem Invariant.waiting {reading : Bool} (h : Invariant capacity payload state)
    (hrunning : state.process = .running reading) : state.caller = .waiting := by
  cases hcaller : state.caller with
  | waiting => rfl
  | joining status =>
    have hexited := h.joining status hcaller
    rw [hrunning] at hexited
    cases hexited
  | returned result =>
    obtain ⟨status, _, hexited, -, -⟩ := h.returned result hcaller
    rw [hrunning] at hexited
    cases hexited

/-- While the writer writes the caller has not returned. -/
theorem Invariant.ne_returned (h : Invariant capacity payload state)
    (hwriter : state.writer = .writing) (result : Except HandOffError Unit) :
    state.caller ≠ .returned result := by
  intro hcaller
  obtain ⟨_, _, -, hdelivered, -⟩ := h.returned result hcaller
  rw [hwriter] at hdelivered
  cases hdelivered

theorem Invariant.step (h : Invariant capacity payload state) (hstep : Step capacity state next) :
    Invariant capacity payload next := by
  cases hstep with
  | @write bytes rest hwriter hopen hbytes hunwritten hroom =>
    have hcaller := h.waiting hopen
    refine ⟨?_, hroom, by simp [hwriter], by simp [hwriter], by simp [hcaller], by simp [hcaller]⟩
    have hkept := h.kept
    rw [State.accepted, hunwritten] at hkept
    simpa [State.accepted] using hkept
  | finish hwriter hunwritten =>
    exact ⟨h.kept, h.bounded, fun _ => hunwritten, by simp, h.joining,
      fun result hcaller => absurd hcaller (h.ne_returned hwriter result)⟩
  | fail hwriter hunwritten hclosed =>
    exact ⟨h.kept, h.bounded, by simp, fun _ => ⟨hunwritten, hclosed⟩, h.joining,
      fun result hcaller => absurd hcaller (h.ne_returned hwriter result)⟩
  | @read bytes rest hopen hpiped =>
    have hcaller := h.waiting hopen
    have hkept := h.kept
    have hbounded := h.bounded
    rw [State.accepted, hpiped] at hkept
    rw [hpiped, List.length_append] at hbounded
    refine ⟨by simpa [State.accepted] using hkept, ?_, h.done, ?_, by simp [hcaller],
      by simp [hcaller]⟩
    · exact Nat.le_of_add_left_le hbounded
    · exact fun hwriter => absurd hopen (h.broken hwriter).2
  | close hopen =>
    have hcaller := h.waiting hopen
    exact ⟨h.kept, h.bounded, h.done, fun hwriter => ⟨(h.broken hwriter).1, by simp⟩,
      by simp [hcaller], by simp [hcaller]⟩
  | exit status hrunning =>
    have hcaller := h.waiting hrunning
    exact ⟨h.kept, h.bounded, h.done, fun hwriter => ⟨(h.broken hwriter).1, by simp⟩,
      by simp [hcaller], by simp [hcaller]⟩
  | @wait status hcaller hexited =>
    refine ⟨h.kept, h.bounded, h.done, h.broken, ?_, by simp⟩
    rintro other hother
    cases hother
    exact hexited
  | @join status delivered hcaller hwriter =>
    refine ⟨h.kept, h.bounded, h.done, h.broken, by simp, ?_⟩
    rintro result hresult
    cases hresult
    exact ⟨status, delivered, h.joining status hcaller, hwriter, rfl⟩

/-- The invariant holds in every state of a hand-off. -/
theorem invariant_of_reached (h : Reached capacity payload state) : Invariant capacity payload state := by
  induction h with
  | refl => exact invariant_start
  | tail _ hstep ih => exact ih.step hstep

/-- Once the process has exited it has the same status for ever, and the pipe accepts nothing more. -/
theorem Step.exited (h : Step capacity state next) (hexited : state.process = .exited status) :
    next.process = .exited status ∧ next.accepted = state.accepted := by
  cases h with
  | write _ hopen => simp [hexited] at hopen
  | finish => exact ⟨hexited, rfl⟩
  | fail => exact ⟨hexited, rfl⟩
  | read hopen => simp [hexited] at hopen
  | close hopen => simp [hexited] at hopen
  | exit _ hrunning => simp [hexited] at hrunning
  | wait => exact ⟨hexited, rfl⟩
  | join => exact ⟨hexited, rfl⟩

theorem exited_of_steps (h : Steps capacity state next) (hexited : state.process = .exited status) :
    next.process = .exited status ∧ next.accepted = state.accepted := by
  induction h with
  | refl => exact ⟨hexited, rfl⟩
  | tail _ hstep ih =>
    obtain ⟨hprocess, haccepted⟩ := hstep.exited ih.1
    exact ⟨hprocess, haccepted.trans ih.2⟩

/-- How many steps are left after the process has exited: the writer's last and the caller's. -/
def State.left (state : State) : Nat :=
  (match state.writer with
    | .writing => 1
    | _ => 0) +
  match state.caller with
  | .waiting => 2
  | .joining _ => 1
  | .returned _ => 0

/-- After the exit every step is one of those left. -/
theorem Step.left (h : Step capacity state next) (hexited : state.process = .exited status) :
    next.left + 1 = state.left := by
  cases h with
  | write _ hopen => simp [hexited] at hopen
  | finish hwriter => simp only [State.left, hwriter]; omega
  | fail hwriter => simp only [State.left, hwriter]; omega
  | read hopen => simp [hexited] at hopen
  | close hopen => simp [hexited] at hopen
  | exit _ hrunning => simp [hexited] at hrunning
  | wait hcaller => simp only [State.left, hcaller]
  | join hcaller => simp only [State.left, hcaller]

theorem Writer.eq_writing_of_delivered? {writer : Writer} (h : writer.delivered? = none) :
    writer = .writing := by
  cases writer with
  | writing => rfl
  | done => cases h
  | broken => cases h

/-- After the exit there is a step as long as the caller has not returned. -/
theorem exists_step_of_exited (hexited : state.process = .exited status)
    (hcaller : ∀ result, state.caller ≠ .returned result) : ∃ next, Step capacity state next := by
  cases hdelivered : state.writer.delivered? with
  | none =>
    have hwriter := Writer.eq_writing_of_delivered? hdelivered
    by_cases hunwritten : state.unwritten = []
    · exact ⟨_, .finish hwriter hunwritten⟩
    · exact ⟨_, .fail hwriter hunwritten (by simp [hexited])⟩
  | some delivered =>
    cases hstage : state.caller with
    | waiting => exact ⟨_, .wait hstage hexited⟩
    | joining status => exact ⟨_, .join hstage hdelivered⟩
    | returned result => exact absurd hstage (hcaller result)

/-- A process that stops reading cannot hold up the hand-off: once it has exited, no more than three
steps are left, and whichever are taken the caller can return. -/
theorem returned_of_exited (hexited : state.process = .exited status) :
    state.left ≤ 3 ∧ ∃ last result, Steps capacity state last ∧ last.caller = .returned result := by
  constructor
  · rw [State.left]
    split <;> split <;> omega
  · induction hleft : state.left generalizing state with
    | zero =>
      cases hcaller : state.caller with
      | returned result => exact ⟨state, result, .refl, hcaller⟩
      | waiting => simp [State.left, hcaller] at hleft
      | joining status => simp [State.left, hcaller] at hleft
    | succ n ih =>
      by_cases hcaller : ∃ result, state.caller = .returned result
      · obtain ⟨result, hcaller⟩ := hcaller
        exact ⟨state, result, .refl, hcaller⟩
      · obtain ⟨next, hstep⟩ :=
          @exists_step_of_exited capacity _ _ hexited (not_exists.1 hcaller)
        have hless := hstep.left hexited
        obtain ⟨last, result, hlast, hresult⟩ := ih (hstep.exited hexited).1 (by omega)
        exact ⟨last, result, .head hstep hlast, hresult⟩

/-- The process reads the text byte by byte as it is written. -/
theorem reached_reading (hcapacity : 0 < capacity) {before after : List UInt8} :
    Reached capacity (before ++ after) ⟨after, [], before, .writing, .running true, .waiting⟩ := by
  induction before using List.reverseRecOn generalizing after with
  | nil => exact .refl
  | append_singleton before byte ih =>
    rw [List.append_assoc]
    have hwrite : Step capacity
        ⟨byte :: after, [], before, .writing, .running true, .waiting⟩
        ⟨after, [byte], before, .writing, .running true, .waiting⟩ :=
      .write rfl rfl (List.cons_ne_nil byte []) rfl hcapacity
    have hread : Step capacity
        ⟨after, [byte], before, .writing, .running true, .waiting⟩
        ⟨after, [], before ++ [byte], .writing, .running true, .waiting⟩ :=
      .read rfl rfl
    exact (ih.tail hwrite).tail hread

/-- When the process has exited and the writer has ended, the caller judges both. -/
theorem steps_judged {delivered : Bool} (hcaller : state.caller = .waiting)
    (hexited : state.process = .exited status)
    (hwriter : state.writer.delivered? = some delivered) :
    Steps capacity state { state with caller := .returned (verdict delivered status) } :=
  .head (.wait hcaller hexited) (.single (.join rfl hwriter))

/-- A pipe gives room for all the pages that were read and for those that it holds. -/
theorem le_of_delivered {size taken : Nat} (h : delivered size taken = true) :
    size ≤ taken + pipePages * pageSize := by
  rw [delivered, decide_eq_true_iff] at h
  simp only [pageSize, pipePages] at h ⊢
  omega

theorem lt_of_not_delivered {size taken : Nat} (h : delivered size taken = false) :
    taken < size := by
  rw [delivered, decide_eq_false_iff_not] at h
  simp only [pageSize, pipePages] at h
  omega

/-- The verdict on what a process took and how it ended is that of a hand-off. -/
theorem exists_reached_verdict {taken : Nat} (htaken : taken ≤ payload.length) (status : ExitStatus) :
    ∃ last, Reached (pipePages * pageSize) payload last ∧ last.process = .exited status ∧
      last.read.length = taken ∧
      last.caller = .returned (verdict (delivered payload.length taken) status) := by
  have hcapacity : 0 < pipePages * pageSize := by decide
  have hread := @reached_reading _ hcapacity (payload.take taken) (payload.drop taken)
  have hlength : (payload.take taken).length = taken := List.length_take_of_le htaken
  rw [List.take_append_drop] at hread
  cases hdelivered : delivered payload.length taken with
  | true =>
    -- The pipe has room for what the process leaves.
    have hroom : (payload.drop taken).length ≤ pipePages * pageSize := by
      have hle := le_of_delivered hdelivered
      rw [List.length_drop]
      omega
    have hwritten : Reached (pipePages * pageSize) payload
        ⟨[], payload.drop taken, payload.take taken, .writing, .running true, .waiting⟩ := by
      by_cases hempty : payload.drop taken = []
      · rwa [hempty] at hread ⊢
      · exact hread.tail (.write rfl rfl hempty (List.append_nil _).symm hroom)
    have hended := (hwritten.tail (.finish rfl rfl)).tail (.exit status rfl)
    exact ⟨_, hended.trans (steps_judged rfl rfl rfl), rfl, hlength, rfl⟩
  | false =>
    have hrest : payload.drop taken ≠ [] := by
      have hlt := lt_of_not_delivered hdelivered
      rw [ne_eq, List.drop_eq_nil_iff]
      omega
    have hended := (hread.tail (.exit status rfl)).tail (.fail rfl hrest (by simp))
    exact ⟨_, hended.trans (steps_judged rfl rfl rfl), rfl, hlength, rfl⟩

/-- What a generator's run is answered with is the result of a hand-off to a process that reads as much
and ends the same way. -/
theorem exists_reached_of_program {generator : Generator} {programs : Programs} {files : Files}
    {folder : String} {payload : ByteArray} {result : Except HandOffError Unit}
    {run : Run} (h : generator.run programs files folder payload = (result, some run))
    (htaken : run.taken ≤ payload.size) :
    ∃ last, Reached (pipePages * pageSize) payload.data.toList last ∧
      last.process = .exited run.status ∧ last.read.length = run.taken ∧
      last.caller = .returned result := by
  have hsize : payload.data.toList.length = payload.size := Array.length_toList
  have hresult : result = verdict (delivered payload.size run.taken) run.status := by
    rw [Generator.run] at h
    dsimp only at h
    split at h
    · cases h
    · split at h
      · cases h
        rfl
      · cases h
  rw [← hsize] at htaken hresult
  rw [hresult]
  exact exists_reached_verdict htaken run.status

/-- A failing process explains itself, and else the hand-off succeeds exactly if the whole text was
accepted. -/
theorem verdict_eq (delivered : Bool) (status : ExitStatus) :
    verdict delivered status =
      if status.isSuccess = false then .error (.failed status)
      else if delivered = true then .ok () else .error .write := by
  rw [verdict, outcome]
  cases hsuccess : status.isSuccess with
  | false => simp [hsuccess, bind, Except.bind]
  | true =>
    cases delivered with
    | false => rfl
    | true => simp [hsuccess, bind, Except.bind]

/-- The writer ends with the whole text accepted exactly if it ends well. -/
theorem Invariant.accepted_iff {delivered : Bool} (h : Invariant capacity payload state)
    (hwriter : state.writer.delivered? = some delivered) :
    state.accepted = payload ↔ delivered = true := by
  have hkept := h.kept
  cases hended : state.writer with
  | writing =>
    rw [hended] at hwriter
    cases hwriter
  | done =>
    rw [hended] at hwriter
    cases hwriter
    rw [h.done hended, List.append_nil] at hkept
    exact iff_of_true hkept rfl
  | broken =>
    rw [hended] at hwriter
    cases hwriter
    refine iff_of_false (fun hall => (h.broken hended).1 ?_) Bool.false_ne_true
    rw [hall] at hkept
    simpa using hkept

/-- In whatever order the three went on, when the caller has returned the process has exited and: the
result is success exactly if the process reports it and the pipe accepted the whole text; it is the
status exactly if the process reports failure; and it is a failure to write exactly if the process
reports success and had exited before the pipe accepted the whole text. The results of the generators'
runs are among these. -/
theorem verdict_of_returned :
    (∀ (capacity : Nat) (payload : List UInt8) (last : State) (result : Except HandOffError Unit),
      Reached capacity payload last → last.caller = .returned result →
      ∃ status, last.process = .exited status ∧
        (result = .ok () ↔ status.isSuccess = true ∧ last.accepted = payload) ∧
        (∀ other, result = .error (.failed other) ↔ status.isSuccess = false ∧ other = status) ∧
        (result = .error .write ↔ status.isSuccess = true ∧ ∃ before, Reached capacity payload before ∧
          Steps capacity before last ∧ before.process = .exited status ∧
          before.accepted ≠ payload)) ∧
    ∀ (generator : Generator) (programs : Programs) (files : Files) (folder : String)
      (payload : ByteArray) (result : Except HandOffError Unit) (run : Run),
      generator.run programs files folder payload = (result, some run) →
      run.taken ≤ payload.size →
      ∃ last, Reached (pipePages * pageSize) payload.data.toList last ∧
        last.process = .exited run.status ∧ last.read.length = run.taken ∧
        last.caller = .returned result := by
  refine ⟨fun capacity payload last result hreached hcaller => ?_,
    fun _ _ _ _ _ _ _ h htaken => exists_reached_of_program h htaken⟩
  have hinvariant := invariant_of_reached hreached
  obtain ⟨status, delivered, hexited, hwriter, rfl⟩ := hinvariant.returned result hcaller
  have haccepted := hinvariant.accepted_iff hwriter
  -- The pipe accepts nothing after the exit, so all states after it agree on what it has accepted.
  have hbefore : (∃ before, Reached capacity payload before ∧ Steps capacity before last ∧
      before.process = .exited status ∧ before.accepted ≠ payload) ↔ last.accepted ≠ payload := by
    constructor
    · rintro ⟨before, -, hsteps, hprocess, hne⟩
      rwa [(exited_of_steps hsteps hprocess).2]
    · intro hne
      exact ⟨last, hreached, .refl, hexited, hne⟩
  refine ⟨status, hexited, ?_⟩
  rw [hbefore, ne_eq, haccepted, verdict_eq]
  cases hsuccess : status.isSuccess with
  | false => simp [eq_comm]
  | true =>
    cases delivered with
    | false => simp
    | true => simp

/-- A process read one byte of three through a pipe for two, and exited with success. -/
def early : State :=
  ⟨[33], [105], [104], .broken, .exited (.code 0), .returned (.error .write)⟩

theorem reached_early : Reached 2 [104, 105, 33] early := by
  have hwrite : Step 2 (.start [104, 105, 33])
      ⟨[33], [104, 105], [], .writing, .running true, .waiting⟩ :=
    .write rfl rfl (List.cons_ne_nil _ _) rfl (by decide)
  have hread : Step 2 ⟨[33], [104, 105], [], .writing, .running true, .waiting⟩
      ⟨[33], [105], [104], .writing, .running true, .waiting⟩ :=
    .read rfl rfl
  have hexit : Step 2 ⟨[33], [105], [104], .writing, .running true, .waiting⟩
      ⟨[33], [105], [104], .writing, .exited (.code 0), .waiting⟩ :=
    .exit (.code 0) rfl
  have hfail : Step 2 ⟨[33], [105], [104], .writing, .exited (.code 0), .waiting⟩
      ⟨[33], [105], [104], .broken, .exited (.code 0), .waiting⟩ :=
    .fail rfl (List.cons_ne_nil _ _) (by decide)
  have hjudged : Steps 2 ⟨[33], [105], [104], .broken, .exited (.code 0), .waiting⟩ early :=
    @steps_judged 2 ⟨[33], [105], [104], .broken, .exited (.code 0), .waiting⟩ _ _ rfl rfl rfl
  exact ((((Relation.ReflTransGen.single hwrite).tail hread).tail hexit).tail hfail).trans hjudged

/-- A program that reads nothing and fails. -/
def deaf : Program := fun _ files _ => ⟨0, .code 7, .empty, files⟩

/-- The process reported success before the pipe had accepted all, which is a failure to write. What the
failing program is answered with is its status. -/
theorem verdict_of_returned_early :
    (Reached 2 [104, 105, 33] early ∧ ∃ before, Reached 2 [104, 105, 33] before ∧
      Steps 2 before early ∧ before.process = .exited (.code 0) ∧
      before.accepted ≠ [104, 105, 33]) ∧
    ∃ last, Reached (pipePages * pageSize) [104, 105, 33] last ∧
      last.process = .exited (.code 7) ∧ last.read.length = 0 ∧
      last.caller = .returned (.error (.failed (.code 7))) := by
  obtain ⟨hreturned, hprograms⟩ := verdict_of_returned
  constructor
  · obtain ⟨status, hexited, -, -, hwrite⟩ := hreturned 2 _ early _ reached_early rfl
    cases hexited
    exact ⟨reached_early, (hwrite.1 rfl).2⟩
  · have hrun : Generator.run ⟨"deaf", []⟩ [("threft-gen-deaf", deaf)] ⟨.folder [], []⟩ "."
        ⟨#[104, 105, 33]⟩ =
          (.error (.failed (.code 7)), some ⟨0, .code 7, .empty, ⟨.folder [], []⟩⟩) := by
      have hpassable : ["deaf"].all Generator.passable = true := by decide
      have henter : (⟨.folder [], []⟩ : Files).enter? "." = some ⟨.folder [], []⟩ := by rfl
      have hlookup : List.lookup (Generator.program ⟨"deaf", []⟩) [("threft-gen-deaf", deaf)] =
          some deaf := by rfl
      rw [Generator.run]
      simp only [hpassable, hlookup, henter, verdict_eq]
      simp [deaf, ExitStatus.isSuccess]
    exact hprograms _ _ _ _ _ _ _ hrun (Nat.zero_le _)

end ThriftIdl.HandOff

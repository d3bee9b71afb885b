import Mathlib.Data.List.DropRight
import ThriftIdl.Proofs.Calls

/-!
Warnings that wait to be handed out. Every parse adds what it collects to what waits, so a drain
hands out what all parses since the last drain collected, and not only what the last of them did.
-/

namespace ThriftIdl.Model

/-- The call parses. -/
def Call.parses : Call → Bool
  | parse => true
  | _ => false

/-- The call hands warnings out. -/
def Call.drains : Call → Bool
  | drain => true
  | _ => false

/-- The warnings that a call collects. A parse collects those on the documents it reads, and a
model that was parsed reads none. -/
def collected (model : Model) : Call → List Warning
  | .parse => if model.parsed then [] else model.appended
  | _ => []

/-- The calls of a run, each with the model it is made on. -/
def trace (model : Model) : List Call → List (Model × Call)
  | [] => []
  | call :: calls => (model, call) :: (model.step call).2.trace calls

/-- What the parses since the last drain collected, one list for each of them. -/
def collections (model : Model) (calls : List Call) : List (List Warning) :=
  (((model.trace calls).rtakeWhile fun made => !made.2.drains).filter fun made =>
    made.2.parses).map fun made => made.1.collected made.2

theorem trace_append (model : Model) (calls more : List Call) :
    model.trace (calls ++ more) = model.trace calls ++ (model.run calls).trace more := by
  induction calls generalizing model with
  | nil => rfl
  | cons call calls ih =>
    rw [List.cons_append, trace, trace, ih, List.cons_append]
    rfl

/-- After a drain no parse has collected anything yet, and a parse collects one list more. -/
theorem collections_concat (model : Model) (calls : List Call) (call : Call) :
    model.collections (calls ++ [call]) =
      if call.drains then []
      else if call.parses then model.collections calls ++ [(model.run calls).collected call]
      else model.collections calls := by
  have htrace : model.trace (calls ++ [call]) = model.trace calls ++ [(model.run calls, call)] :=
    trace_append model calls [call]
  rw [collections, collections, htrace, List.rtakeWhile_concat]
  cases hdrains : call.drains with
  | true => simp
  | false => cases hparses : call.parses <;> simp [hparses]

theorem collected_of_not_parses {model : Model} {call : Call} (h : call.parses = false) :
    model.collected call = [] := by
  cases call with
  | parse => cases h
  | _ => rfl

theorem warnings_add {model next : Model} {name source : String}
    (h : model.add name source = .ok next) : next.warnings = model.warnings := by
  obtain ⟨-, -, rfl⟩ := add_eq_ok_iff.1 h
  rfl

/-- A drain leaves no warning. Any other call leaves what waits, and what it collects after it. -/
theorem warnings_step (model : Model) (call : Call) :
    (model.step call).2.warnings =
      if call.drains then [] else model.warnings ++ model.collected call := by
  cases call with
  | drain => rfl
  | look => exact (List.append_nil _).symm
  | parse =>
    change model.parse.2.warnings = model.warnings ++ model.collected .parse
    cases hparsed : model.parsed with
    | true => rw [parse_of_parsed hparsed, collected, hparsed, if_pos rfl, List.append_nil]
    | false =>
      rw [warnings_parse hparsed, collected, hparsed]
      rfl
  | add name source =>
    change _ = model.warnings ++ []
    rw [List.append_nil, step]
    split
    · next hadd => exact warnings_add hadd
    · rfl
  | addBytes name bytes =>
    change _ = model.warnings ++ []
    rw [List.append_nil, step]
    split
    · next hadd =>
      obtain ⟨source, -, hnext⟩ := addBytes_eq_ok_iff.1 hadd
      exact warnings_add hnext
    · rfl

/-- What waits after a run is what the parses since the last drain collected, one after the
other. -/
theorem warnings_run {model : Model} (h : model.warnings = []) (calls : List Call) :
    (model.run calls).warnings = (model.collections calls).flatten := by
  induction calls using List.reverseRecOn with
  | nil => exact h
  | append_singleton calls call ih =>
    rw [run_append, collections_concat]
    change ((model.run calls).step call).2.warnings = _
    rw [warnings_step]
    cases hdrains : call.drains with
    | true => rfl
    | false =>
      cases hparses : call.parses with
      | true =>
        rw [ih]
        simp
      | false =>
        rw [ih, collected_of_not_parses hparses]
        simp

/-- Lists one after the other are the last of them exactly if those before it are empty. -/
theorem flatten_eq_getLast?_iff {α : Type} (lists : List (List α)) :
    lists.flatten = lists.getLast?.getD [] ↔ ∀ earlier ∈ lists.dropLast, earlier = [] := by
  rcases List.eq_nil_or_concat lists with rfl | ⟨before, last, rfl⟩
  · simp
  · simp

/-- A drain hands out what the parses since the last drain collected, one after the other. This is
what the last of them collected, or nothing if there is none, exactly if those before it collected
nothing. -/
theorem drain_run {model : Model} (h : model.warnings = []) (calls : List Call) :
    (model.run calls).drain.1 = (model.collections calls).flatten ∧
      ((model.run calls).drain.1 = (model.collections calls).getLast?.getD [] ↔
        ∀ earlier ∈ (model.collections calls).dropLast, earlier = []) := by
  have hdrain : (model.run calls).drain.1 = (model.collections calls).flatten :=
    warnings_run h calls
  refine ⟨hdrain, ?_⟩
  rw [hdrain]
  exact flatten_eq_getLast?_iff _

/-- A document with a directive that is skipped and no definition: parsing it fails with a
warning. -/
def addSkipped : Call := .add "a.thrift" "include \"b.thrift\""

/-- With a drain between them, the second of two parses that fail has its own warning handed
out. -/
theorem drain_run_between :
    (empty.run [addSkipped, .parse, .drain, .parse]).drain.1 =
      (empty.collections [addSkipped, .parse, .drain, .parse]).getLast?.getD [] ∧
    (empty.run [addSkipped, .parse, .drain, .parse]).drain.1.length = 1 := by
  refine ⟨(drain_run rfl _).2.2 ?_, by decide +kernel⟩
  have hone : (empty.collections [addSkipped, .parse, .drain, .parse]).dropLast.length = 0 := by
    decide +kernel
  rw [List.length_eq_zero_iff.1 hone]
  simp

/-- After two parses that fail, the warnings of both are handed out. -/
theorem drain_twice :
    (empty.run [addSkipped, .parse, .parse]).drain.1 ≠
      (empty.collections [addSkipped, .parse, .parse]).getLast?.getD [] := by
  have hall : (empty.run [addSkipped, .parse, .parse]).drain.1.length = 2 := by decide +kernel
  have hlast : ((empty.collections [addSkipped, .parse, .parse]).getLast?.getD []).length = 1 := by
    decide +kernel
  intro heq
  rw [heq, hlast] at hall
  cases hall

end ThriftIdl.Model

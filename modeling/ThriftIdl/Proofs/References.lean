import ThriftIdl.Proofs.Document.WellFormed
import ThriftIdl.Proofs.Failure

/-!
References of a model's namespaces. What a namespace lists is found in the documents, in every model
that was parsed and in every model that no parse of one sort came before: one that fails in merging,
on a model with targets, and leaves documents without a definition that the targets list.
-/

namespace ThriftIdl

/-- What the namespace lists is found in the model: a reference leads to a definition of the kind
it is listed under, on the line where its name was declared, and each name has one reference. -/
structure Namespace.Grounded (model : Model) (space : Namespace) : Prop where
  resolved : ∀ kind, ∀ reference ∈ space.referencesOf kind,
    ∃ definition, model.resolve? reference = some definition ∧ definition.kind = kind ∧
      space.declaredAt? reference.identifier = some ⟨reference.document, definition.line⟩
  size_eq : space.size = (Kind.all.flatMap space.referencesOf).length

/-- What the namespaces of the model's targets list is found in it. -/
def Model.Grounded (model : Model) : Prop :=
  ∀ target ∈ model.targets, ∀ space ∈ target.namespaces, space.Grounded model

namespace Namespace

/-- Every member is listed under its kind, once. -/
theorem size_eq_length (space : Namespace) :
    space.size = (Kind.all.flatMap space.referencesOf).length := by
  have hlength := (grouped_perm space.members).length_eq
  rw [grouped, ofKinds, List.length_flatMap] at hlength
  rw [size, ← hlength, List.length_flatMap]
  simp only [referencesOf, List.length_map]

theorem mem_referencesOf {space : Namespace} {kind : Kind} {reference : Reference} :
    reference ∈ space.referencesOf kind ↔
      ∃ member ∈ space.members, member.kind = kind ∧ member.reference = reference := by
  simp [referencesOf, and_assoc]

/-- Of a member with a name of its own, the namespace knows where it was declared. -/
theorem declaredAt?_of_mem {space : Namespace} (h : Apart space.members) {member : Member}
    (hmember : member ∈ space.members) :
    space.declaredAt? member.identifier = some member.location := by
  rw [declaredAt?, (member?_eq_some_iff h).2 ⟨hmember, rfl⟩]
  rfl

/-- Among members with names apart, the references lead where they should exactly if every member
stands for a definition. -/
theorem grounded_iff {model : Model} {space : Namespace} (h : Apart space.members) :
    space.Grounded model ↔ ∀ member ∈ space.members, member.Resolved model.documents := by
  constructor
  · intro hgrounded member hmember
    obtain ⟨definition, hresolve, hkind, hdeclared⟩ := hgrounded.resolved member.kind
      member.reference (mem_referencesOf.2 ⟨member, hmember, rfl, rfl⟩)
    obtain ⟨document, hdocument, hdefinition⟩ := Option.bind_eq_some_iff.1 hresolve
    refine ⟨document, definition, hdocument, hdefinition, ?_⟩
    have hname := (Lookup.mem_of_find? hdocument).2
    have hidentifier := (Lookup.mem_of_find? hdefinition).2
    have hlocation : member.location = ⟨member.reference.document, definition.line⟩ := by
      have hat := declaredAt?_of_mem h hmember
      exact Option.some.inj (hat.symm.trans hdeclared)
    have hreference : member.reference = ⟨document.name, definition.name⟩ := by
      rw [hname, hidentifier]
    calc member = ⟨member.kind, member.reference, member.location⟩ := rfl
      _ = Member.ofDefinition document.name definition := by
        rw [hlocation, ← hname, hreference, ← hkind]
        rfl
  · intro hresolved
    refine ⟨?_, space.size_eq_length⟩
    intro kind reference hreference
    obtain ⟨member, hmember, rfl, rfl⟩ := mem_referencesOf.1 hreference
    obtain ⟨document, definition, hdocument, hdefinition, heq⟩ := hresolved member hmember
    have hname := (Lookup.mem_of_find? hdocument).2
    refine ⟨definition, ?_, ?_, ?_⟩
    · rw [Model.resolve?, Model.document?, hdocument]
      exact hdefinition
    · rw [heq]
      rfl
    · have hat := declaredAt?_of_mem h hmember
      rw [← hname]
      exact hat.trans (by rw [heq]; rfl)

end Namespace

namespace Model

/-- The documents have names apart, and the targets are made of their definitions. -/
structure Linked (model : Model) : Prop where
  nodup_names : (model.documents.map (·.name)).Nodup
  targets : ∀ target ∈ model.targets, target.Portable model.documents

theorem Linked.grounded {model : Model} (h : model.Linked) : model.Grounded := by
  intro target htarget space hspace
  have hportable := (h.targets target htarget).namespaces space hspace
  exact (Namespace.grounded_iff hportable.apart).2 hportable.resolved

/-- More documents with new names leave a member standing for what it stood for. -/
theorem resolved_append {documents more : List Document} {member : Member}
    (h : member.Resolved documents) : member.Resolved (documents ++ more) := by
  obtain ⟨document, definition, hdocument, hdefinition, heq⟩ := h
  refine ⟨document, definition, ?_, hdefinition, heq⟩
  rw [List.find?_append, hdocument]
  rfl

theorem portable_of_resolved {left right : List Document} {target : Target}
    (h : target.Portable left)
    (hresolved : ∀ space ∈ target.namespaces, ∀ member ∈ space.members, member.Resolved right) :
    target.Portable right where
  nodup_names := h.nodup_names
  target_eq := h.target_eq
  namespaces := fun space hspace =>
    ⟨(h.namespaces space hspace).grouped, (h.namespaces space hspace).apart,
      hresolved space hspace⟩

theorem Linked.withSource {model : Model} (h : model.Linked) {name source : String}
    (hname : name ∉ model.documents.map (·.name)) : (model.withSource name source).Linked where
  nodup_names := by
    rw [Model.withSource, List.map_append]
    exact Lookup.nodup_append_singleton.2 ⟨h.nodup_names, hname⟩
  targets := by
    intro target htarget
    apply portable_of_resolved (h.targets target htarget)
    intro space hspace member hmember
    exact resolved_append (((h.targets target htarget).namespaces space hspace).resolved
      member hmember)

/-- The targets that documents as read make up are made of their definitions. -/
theorem linked_of_resolve {model : Model} (hnames : (model.documents.map (·.name)).Nodup)
    {documents : List Document} (hread : model.documents.mapM Document.read = .ok documents)
    {targets : List Target} (hresolve : Target.resolve documents = .ok targets)
    (warnings : List Warning) : Linked ⟨documents, targets, true, warnings⟩ := by
  have hreadNames : (documents.map (·.name)).Nodup := by
    rw [map_name_of_mapM_read hread]
    exact hnames
  refine ⟨hreadNames, ?_⟩
  intro target htarget
  apply Target.portable_of_resolve hreadNames _ hresolve htarget
  intro document hdocument
  obtain ⟨source, -, hsource⟩ := Steps.exists_of_mem_mapM hread hdocument
  exact Document.nodup_names_of_read hsource

/-- Every member of the targets' namespaces stands for a definition of the documents. -/
def Covers (targets : List Target) (documents : List Document) : Prop :=
  ∀ target ∈ targets, ∀ space ∈ target.namespaces, ∀ member ∈ space.members,
    member.Resolved documents

/-- The call parses documents that can be read but not merged, and as read they lack a definition
that the model's targets list. -/
def Unsettles (model : Model) (call : Call) : Prop :=
  call = .parse ∧ model.parsed = false ∧
    ∃ documents, model.documents.mapM Document.read = .ok documents ∧
      (¬∃ targets, Target.resolve documents = .ok targets) ∧ ¬Covers model.targets documents

theorem Linked.covers {model : Model} (h : model.Linked) : Covers model.targets model.documents :=
  fun target htarget space hspace => ((h.targets target htarget).namespaces space hspace).resolved

/-- Documents with the same names that cover the targets keep a model linked. -/
theorem Linked.replace {model : Model} (h : model.Linked) {documents : List Document}
    (hnames : documents.map (·.name) = model.documents.map (·.name))
    (hcovers : Covers model.targets documents) (warnings : List Warning) :
    { model with documents := documents, warnings := warnings }.Linked where
  nodup_names := by
    change (documents.map (·.name)).Nodup
    rw [hnames]
    exact h.nodup_names
  targets := fun target htarget => portable_of_resolved (h.targets target htarget)
    (hcovers target htarget)

/-- Whatever a call does to a linked model, the model is linked if the call does not unsettle
it. -/
theorem Linked.step {model : Model} (h : model.Linked) {call : Call}
    (hcall : ¬model.Unsettles call) : (model.step call).2.Linked := by
  by_cases hparse : call = .parse
  · subst hparse
    change model.parse.2.Linked
    by_cases hparsed : model.parsed = true
    · rw [parse_of_parsed hparsed]
      exact h
    · rw [Bool.not_eq_true] at hparsed
      rcases parse_cases h.nodup_names hparsed with
        ⟨fault, -, hparse⟩ |
          ⟨documents, hread, ⟨fault, hfault, hparse⟩ | ⟨targets, htargets, hparse⟩⟩
      · rw [hparse]
        exact h.replace rfl h.covers _
      · rw [hparse]
        apply h.replace (map_name_of_mapM_read hread)
        by_contra hcovers
        refine hcall ⟨rfl, hparsed, documents, hread, ?_, hcovers⟩
        rintro ⟨targets, htargets⟩
        rw [hfault] at htargets
        cases htargets
      · rw [hparse]
        exact linked_of_resolve h.nodup_names hread htargets _
  · rcases step_cases model hparse with
      ⟨name, source, -, -, hname, hstep⟩ | ⟨error, hstep⟩ | ⟨-, warnings, hstep⟩
    · rw [hstep]
      exact h.withSource hname
    · rw [hstep]
      exact h
    · rw [hstep]
      exact h.replace rfl h.covers warnings

/-- A call grounds a linked model again exactly if it does not unsettle it. -/
theorem Linked.grounded_step_iff {model : Model} (h : model.Linked) (call : Call) :
    (model.step call).2.Grounded ↔ ¬model.Unsettles call := by
  constructor
  · rintro hgrounded ⟨rfl, hparsed, documents, hread, hunmerged, hcovers⟩
    apply hcovers
    obtain ⟨fault, hparse⟩ := parse_of_unmerged h.nodup_names hparsed hread hunmerged
    rw [Model.step, hparse] at hgrounded
    intro target htarget space hspace
    have hapart := ((h.targets target htarget).namespaces space hspace).apart
    exact (Namespace.grounded_iff hapart).1 (hgrounded target htarget space hspace)
  · intro hcall
    exact (h.step hcall).grounded

/-- A call that parses a model links it. -/
theorem linked_of_parsed_step {model : Model} (hnames : (model.documents.map (·.name)).Nodup)
    (hbefore : model.parsed = false) {call : Call} (hafter : (model.step call).2.parsed = true) :
    (model.step call).2.Linked := by
  by_cases hcall : call = .parse
  · subst hcall
    change model.parse.2.parsed = true at hafter
    change model.parse.2.Linked
    rcases parse_cases hnames hbefore with
      ⟨fault, -, hparse⟩ | ⟨documents, hread, ⟨fault, -, hparse⟩ | ⟨targets, htargets, hparse⟩⟩
    · rw [hparse, hbefore] at hafter
      cases hafter
    · rw [hparse, hbefore] at hafter
      cases hafter
    · rw [hparse]
      exact linked_of_resolve hnames hread htargets _
  · have hstays : (model.step call).2.parsed = model.parsed := by
      rcases step_cases model hcall with
        ⟨name, source, -, -, -, hstep⟩ | ⟨error, hstep⟩ | ⟨-, warnings, hstep⟩
      · rw [hstep]
        rfl
      · rw [hstep]
      · rw [hstep]
    rw [hstays, hbefore] at hafter
    cases hafter

/-- A model that was parsed is linked, however it came up. -/
theorem Reachable.linked {model : Model} (h : Reachable model) (hparsed : model.parsed = true) :
    model.Linked := by
  induction h with
  | empty => cases hparsed
  | decoded h => exact ⟨(portable_of_decode h).nodup_documents, (portable_of_decode h).targets⟩
  | @step model h call ih =>
    by_cases hbefore : model.parsed = true
    · apply (ih hbefore).step
      rintro ⟨-, hunparsed, -⟩
      rw [hbefore] at hunparsed
      cases hunparsed
    · rw [Bool.not_eq_true] at hbefore
      exact linked_of_parsed_step h.nodup_names hbefore hparsed

/-- The models that come up by calls none of which unsettles one. -/
inductive Settled : Model → Prop
  | empty : Settled empty
  | decoded {bytes : ByteArray} {model : Model} (h : decode bytes = .ok model) : Settled model
  | step {model : Model} (h : Settled model) {call : Call} (hcall : ¬model.Unsettles call) :
      Settled (model.step call).2

theorem Settled.linked {model : Model} (h : Settled model) : model.Linked := by
  induction h with
  | empty => exact ⟨List.nodup_nil, by simp [Model.empty]⟩
  | decoded h => exact ⟨(portable_of_decode h).nodup_documents, (portable_of_decode h).targets⟩
  | step _ hcall ih => exact ih.step hcall

/-- What the namespaces of a model list is found in it if it was parsed, and also if it was not as
long as no call unsettled it; and a call does so exactly if it parses documents that can be read,
cannot be merged, and as read lack a definition that the targets list. -/
theorem grounded_of_reachable {model : Model} (h : Reachable model) :
    (model.parsed = true → model.Grounded) ∧
      (Settled model → model.Grounded ∧
        ∀ call, (model.step call).2.Grounded ↔ ¬model.Unsettles call) :=
  ⟨fun hparsed => (h.linked hparsed).grounded,
    fun hsettled => ⟨hsettled.linked.grounded, hsettled.linked.grounded_step_iff⟩⟩

/-- A model that bytes can write: it has targets though it was not parsed, and its documents are
not as reading them leaves them. -/
def stale : Model where
  documents := [
    { name := "a.thrift", lines := ["namespace go shared", "const i32 X = 1"],
      namespaces := [("default", "a"), ("go", "shared")],
      definitions := [⟨⟨"Y", 1⟩, .const "i32" "1"⟩] },
    { name := "b.thrift", lines := ["namespace go shared", "const i64 X = 2"],
      namespaces := [("default", "b"), ("go", "shared")], definitions := [] }]
  targets := [⟨"default", [⟨"default", "a", [⟨.const, ⟨"a.thrift", "Y"⟩, ⟨"a.thrift", 1⟩⟩]⟩]⟩]

theorem portable_stale : stale.Portable where
  documents := by
    simp only [stale, List.forall_mem_cons, List.not_mem_nil, IsEmpty.forall_iff, implies_true,
      and_true]
    constructor
    · refine ⟨?_, by decide, by decide⟩
      rw [List.forall_mem_singleton]
      exact ⟨by decide, by simp [Body.lines], by simp [Body.functions]⟩
    · exact ⟨by simp, by decide, by decide⟩
  nodup_documents := by decide
  targets := by
    simp only [stale, List.forall_mem_singleton]
    refine ⟨by decide, by decide, ?_⟩
    rw [List.forall_mem_singleton]
    refine ⟨by decide, List.nodup_singleton _, ?_⟩
    rw [List.forall_mem_singleton]
    exact ⟨_, _, rfl, rfl, rfl⟩
  nodup_targets := by decide

theorem decode_stale : decode stale.encode.toUTF8 = .ok stale :=
  decode_encode_of_portable portable_stale

theorem mapM_read_stale : stale.documents.mapM Document.read = .ok clashRead := by
  decide +kernel

/-- Read and not merged, the model lists a constant that none of its documents has. -/
theorem unresolved_stale :
    Reachable (stale.step .parse).2 ∧
      ∃ target ∈ (stale.step .parse).2.targets, ∃ space ∈ target.namespaces,
        ∃ reference ∈ space.referencesOf .const,
          (stale.step .parse).2.resolve? reference = none := by
  refine ⟨(Reachable.decoded decode_stale).step .parse, ?_⟩
  obtain ⟨fault, hparse⟩ := parse_of_unmerged (by decide) rfl mapM_read_stale clashRead_unmerged
  rw [step, hparse]
  refine ⟨_, List.mem_singleton_self _, _, List.mem_singleton_self _, ⟨"a.thrift", "Y"⟩, ?_, ?_⟩
  · decide
  · rfl

theorem unsettles_stale : stale.Unsettles .parse := by
  refine ⟨rfl, rfl, clashRead, mapM_read_stale, clashRead_unmerged, ?_⟩
  intro hcovers
  obtain ⟨document, definition, hdocument, hdefinition, -⟩ :=
    hcovers _ (List.mem_singleton_self _) _ (List.mem_singleton_self _) _
      (List.mem_singleton_self _)
  cases hdocument
  cases hdefinition

/-- Marked as parsed, the model lists what it has, and so it does if not, until it is parsed. -/
theorem grounded_stale :
    { stale with parsed := true }.Grounded ∧ stale.Grounded ∧
      ¬(stale.step .parse).2.Grounded := by
  have hportable : { stale with parsed := true }.Portable :=
    ⟨portable_stale.documents, portable_stale.nodup_documents, portable_stale.targets,
      portable_stale.nodup_targets⟩
  have hmarked : Reachable { stale with parsed := true } :=
    .decoded (decode_encode_of_portable hportable)
  obtain ⟨hgrounded, hstep⟩ :=
    (grounded_of_reachable (Reachable.decoded decode_stale)).2 (.decoded decode_stale)
  refine ⟨(grounded_of_reachable hmarked).1 rfl, hgrounded, ?_⟩
  rw [hstep, not_not]
  exact unsettles_stale

end Model

end ThriftIdl

import ThriftIdl.Proofs.Model.Decoded

/-!
Faults of a model's text. Almost all complaints are about its form. A fault is found only where
names must stand apart: in a document whose definitions are put together again, and in a namespace
whose references are registered again.
-/

namespace ThriftIdl

/-- The complaint is about the form of the text. -/
def Complaint.IsOfForm : Complaint → Prop
  | fault _ => False
  | _ => True

namespace DecodeError

/-- The text is refused for its form. -/
def IsOfForm : DecodeError → Prop
  | refused _ complaint => complaint.IsOfForm
  | stopped _ => False

/-- The reading ends with the fault: the text is refused with it, or the program stops while it
writes the fault's message. -/
inductive EndsIn (fault : Fault) : DecodeError → Prop
  | refused {contexts : List Context} {message : String}
      (message_eq : fault.message = .ok message) : EndsIn fault (.refused contexts (.fault fault))
  | stopped {overflow : Overflow} (message_eq : fault.message = .error overflow) :
      EndsIn fault (.stopped overflow)

variable {error : DecodeError} {fault : Fault}

theorem endsIn_ofFault (fault : Fault) : (ofFault fault).EndsIn fault := by
  rw [ofFault]
  split
  · next hmessage => exact .refused hmessage
  · next hmessage => exact .stopped hmessage

theorem IsOfForm.within (h : error.IsOfForm) (context : Context) :
    (error.within context).IsOfForm := by
  cases error with
  | refused contexts complaint => exact h
  | stopped overflow => exact h

theorem EndsIn.within (h : error.EndsIn fault) (context : Context) :
    (error.within context).EndsIn fault := by
  cases h with
  | refused hmessage => exact .refused hmessage
  | stopped hmessage => exact .stopped hmessage

end DecodeError

/-- The lines of the definitions fit a word. -/
def Document.LinesFit (document : Document) : Prop :=
  ∀ definition ∈ document.definitions, definition.line < Text.wordSize

/-- The lines of the members fit a word. -/
def Namespace.LinesFit (space : Namespace) : Prop :=
  ∀ member ∈ space.members, member.location.line < Text.wordSize

/-- A fault with a definition whose name is taken in its document or in a namespace, where all lines
fit a word. -/
inductive Fault.Redefines : Fault → Prop
  | inDocument {document : Document} {definition : Definition} {fault : Fault}
      (document_fits : document.LinesFit) (definition_fits : definition.line < Text.wordSize)
      (push_eq : document.push definition = .error fault) : Redefines fault
  | inNamespace {space : Namespace} {document : String} {definition : Definition} {fault : Fault}
      (space_fits : space.LinesFit) (definition_fits : definition.line < Text.wordSize)
      (register_eq : space.register document definition = .error fault) : Redefines fault

namespace Decoding

variable {α β : Type} {json : Json} {members : List (String × Json)} {key : String}
  {P : Fault → Prop}

/-- If the reading fails, then for the form of the text or with a fault that has the property. -/
def Confined (P : Fault → Prop) (result : Decoded α) : Prop :=
  ∀ error, result = .error error → error.IsOfForm ∨ ∃ fault, P fault ∧ error.EndsIn fault

theorem confined_ok (value : α) : Confined P (.ok value) := by
  rintro error ⟨⟩

theorem confined_refuse {complaint : Complaint} (h : complaint.IsOfForm) :
    Confined P (refuse complaint : Decoded α) := by
  rintro error ⟨⟩
  exact Or.inl h

theorem Confined.bind_of_ok {first : Decoded α} {second : α → Decoded β} (hfirst : Confined P first)
    (hsecond : ∀ value, first = .ok value → Confined P (second value)) :
    Confined P (first >>= second) := by
  intro error h
  rcases Steps.bind_eq_error.1 h with h | ⟨value, hvalue, h⟩
  · exact hfirst error h
  · exact hsecond value hvalue error h

theorem Confined.bind {first : Decoded α} {second : α → Decoded β} (hfirst : Confined P first)
    (hsecond : ∀ value, Confined P (second value)) : Confined P (first >>= second) :=
  hfirst.bind_of_ok fun value _ => hsecond value

theorem Confined.map {result : Decoded α} (h : Confined P result) (f : α → β) :
    Confined P (result.map f) := by
  cases result with
  | error other =>
    rintro _ ⟨⟩
    exact h other rfl
  | ok value => exact confined_ok _

theorem Confined.within {result : Decoded α} (h : Confined P result) (context : Context) :
    Confined P (within context result) := by
  cases result with
  | error other =>
    rintro _ ⟨⟩
    rcases h other rfl with hform | ⟨fault, hfault, hends⟩
    · exact Or.inl (hform.within context)
    · exact Or.inr ⟨fault, hfault, hends.within context⟩
  | ok value => exact confined_ok value

theorem confined_mapM {f : α → Decoded β} (h : ∀ item, Confined P (f item)) (items : List α) :
    Confined P (items.mapM f) := by
  intro error herror
  obtain ⟨_, item, _, -, -, hitem⟩ := Steps.mapM_eq_error_iff.1 herror
  exact h item error hitem

/-- The steps of a fold find only such faults, if each does in the states the others lead to. -/
theorem confined_foldlM {f : β → α → Decoded β} {Good : β → Prop}
    (hstep : ∀ state item, Good state → Confined P (f state item))
    (hkeep : ∀ state item next, Good state → f state item = .ok next → Good next)
    (items : List α) {state : β} (hstate : Good state) : Confined P (items.foldlM f state) := by
  intro error herror
  obtain ⟨_, item, _, next, -, hnext, hitem⟩ := Steps.foldlM_eq_error_iff.1 herror
  exact hstep next item (Steps.of_foldlM hkeep hstate hnext) error hitem

theorem asObject_confined (what : String) (json : Json) : Confined P (asObject what json) := by
  cases json with
  | object => exact confined_ok _
  | _ => exact confined_refuse trivial

theorem asArray_confined (what : String) (json : Json) : Confined P (asArray what json) := by
  cases json with
  | array => exact confined_ok _
  | _ => exact confined_refuse trivial

theorem asString_confined (what : String) (json : Json) : Confined P (asString what json) := by
  cases json with
  | string => exact confined_ok _
  | _ => exact confined_refuse trivial

theorem asBool_confined (what : String) (json : Json) : Confined P (asBool what json) := by
  cases json with
  | bool => exact confined_ok _
  | _ => exact confined_refuse trivial

theorem get_confined : Confined P (get members key) := by
  rw [get]
  split
  · exact confined_ok _
  · exact confined_refuse trivial

theorem stringAt_confined : Confined P (stringAt members key) :=
  get_confined.bind fun _ => asString_confined _ _

theorem boolAt_confined : Confined P (boolAt members key) :=
  get_confined.bind fun _ => asBool_confined _ _

theorem arrayAt_confined : Confined P (arrayAt members key) :=
  get_confined.bind fun _ => asArray_confined _ _

theorem optionalAt_confined : Confined P (optionalAt members key) := by
  rw [optionalAt]
  split
  · exact (asString_confined _ _).map some
  · exact confined_ok _

theorem lineAt_confined : Confined P (lineAt members) := by
  refine get_confined.bind fun value => ?_
  split
  · split
    · exact confined_ok _
    · exact confined_refuse trivial
  · exact confined_refuse trivial

theorem narrowed_confined (narrow? : Int → Option α) (what : String) (form : Form) (json : Json) :
    Confined P (narrowed narrow? (.mustBe what form) json) := by
  cases json with
  | integer value =>
    rw [narrowed]
    split
    · exact confined_ok _
    · exact confined_refuse trivial
  | _ => exact confined_refuse trivial

theorem requiredness_confined (word : String) : Confined P (requiredness word) := by
  rw [requiredness]
  split
  · exact confined_ok _
  · exact confined_refuse trivial

theorem kind_confined (word : String) : Confined P (kind word) := by
  rw [kind]
  split
  · exact confined_ok _
  · exact confined_refuse trivial

theorem enumValue_confined (json : Json) : Confined P (enumValue json) := by
  refine (asObject_confined _ json).bind fun members => ?_
  refine get_confined.bind fun number => ?_
  refine (narrowed_confined _ _ _ number).bind fun value => ?_
  refine stringAt_confined.bind fun name => ?_
  refine boolAt_confined.bind fun explicit => ?_
  exact lineAt_confined.bind fun line => confined_ok _

theorem field_confined (json : Json) : Confined P (field json) := by
  refine (asObject_confined _ json).bind fun members => ?_
  refine get_confined.bind fun number => ?_
  refine (narrowed_confined _ _ _ number).bind fun id => ?_
  refine stringAt_confined.bind fun word => ?_
  refine (requiredness_confined word).bind fun requiredness => ?_
  refine optionalAt_confined.bind fun default? => ?_
  refine stringAt_confined.bind fun type => ?_
  refine stringAt_confined.bind fun name => ?_
  exact lineAt_confined.bind fun line => confined_ok _

theorem fieldsAt_confined : Confined P (fieldsAt members key) :=
  get_confined.bind fun _ => (asArray_confined _ _).bind fun items =>
    confined_mapM field_confined items

theorem function_confined (json : Json) : Confined P (function json) := by
  refine (asObject_confined _ json).bind fun members => ?_
  refine stringAt_confined.bind fun returnType => ?_
  refine stringAt_confined.bind fun name => ?_
  refine boolAt_confined.bind fun oneway => ?_
  refine fieldsAt_confined.bind fun params => ?_
  refine fieldsAt_confined.bind fun throws => ?_
  exact lineAt_confined.bind fun line => confined_ok _

theorem body_confined (members : List (String × Json)) (kind : Kind) :
    Confined P (body members kind) := by
  cases kind with
  | const =>
    exact stringAt_confined.bind fun _ => stringAt_confined.bind fun _ => confined_ok _
  | typedef => exact stringAt_confined.bind fun _ => confined_ok _
  | enum =>
    exact arrayAt_confined.bind fun items =>
      (confined_mapM enumValue_confined items).bind fun _ => confined_ok _
  | senum =>
    exact arrayAt_confined.bind fun items =>
      (confined_mapM (asString_confined _) items).bind fun _ => confined_ok _
  | struct => exact fieldsAt_confined.bind fun _ => confined_ok _
  | exception => exact fieldsAt_confined.bind fun _ => confined_ok _
  | service =>
    exact optionalAt_confined.bind fun _ => arrayAt_confined.bind fun items =>
      (confined_mapM function_confined items).bind fun _ => confined_ok _

theorem definition_confined (json : Json) : Confined P (definition json) := by
  refine (asObject_confined _ json).bind fun members => ?_
  refine stringAt_confined.bind fun word => ?_
  refine (kind_confined word).bind fun kind => ?_
  refine stringAt_confined.bind fun name => ?_
  refine lineAt_confined.bind fun line => ?_
  exact (body_confined members kind).bind fun body => confined_ok _

theorem definitionsFrom_confined (items : List Json) (index : Nat) :
    Confined P (definitionsFrom index items) := by
  induction items generalizing index with
  | nil => exact confined_ok []
  | cons item items ih =>
    exact ((definition_confined item).within _).bind fun first =>
      (ih (index + 1)).bind fun more => confined_ok _

theorem namespaces_confined (members : List (String × Json)) :
    Confined P (namespaces members) := by
  refine Confined.bind ?_ fun pairs => confined_ok _
  exact confined_mapM (fun member => (asString_confined _ member.2).bind fun _ => confined_ok _)
    members

theorem faultless_confined {result : Except Fault α}
    (h : ∀ fault, result = .error fault → P fault) : Confined P (faultless result) := by
  cases result with
  | ok value => exact confined_ok value
  | error cause =>
    rintro _ ⟨⟩
    exact Or.inr ⟨cause, h cause rfl, DecodeError.endsIn_ofFault cause⟩

/-- A document is put together from definitions whose lines fit. -/
theorem document_confined (name : String) (json : Json) :
    Confined Fault.Redefines (document name json) := by
  refine (asObject_confined _ json).bind fun members => ?_
  refine get_confined.bind fun spaces => ?_
  refine (asObject_confined _ spaces).bind fun entries => ?_
  refine (namespaces_confined entries).bind fun table => ?_
  refine arrayAt_confined.bind fun items => ?_
  refine (confined_mapM (asString_confined _) items).bind fun lines => ?_
  refine arrayAt_confined.bind fun items => ?_
  refine (definitionsFrom_confined items 0).bind_of_ok fun definitions hdefinitions => ?_
  have hfits : ∀ definition ∈ definitions, definition.line < Text.wordSize := by
    intro definition hdefinition
    obtain ⟨item, -, hwritten⟩ :=
      Steps.exists_right_of_forall₂ (definitionsFrom_eq_ok_iff.1 hdefinitions).flip hdefinition
    exact hwritten.fits
  apply faultless_confined
  intro fault hfault
  obtain ⟨before, definition, after, next, rfl, hnext, hpush⟩ := Steps.foldlM_eq_error_iff.1 hfault
  rw [List.forall_mem_append, List.forall_mem_cons] at hfits
  obtain ⟨-, rfl⟩ := Document.foldlM_push_eq_ok_iff.1 hnext
  have hbefore : Document.LinesFit ⟨name, lines, table, before⟩ := hfits.1
  exact .inDocument hbefore hfits.2.1 hpush

theorem referenced_confined (documents : List Document) (space : String) (listed : Kind)
    (reference : Reference) : Confined P (referenced documents space listed reference) := by
  simp only [referenced]
  split
  · exact confined_refuse trivial
  · split
    · exact confined_ok _
    · exact confined_refuse trivial

/-- The definitions that references point to are those of the documents. -/
theorem fits_of_referenced {documents : List Document} {listed : Kind} {space : String}
    {reference : Reference} {definition : Definition}
    (hdocuments : ∀ document ∈ documents, document.LinesFit)
    (h : referenced documents space listed reference = .ok definition) :
    definition.line < Text.wordSize := by
  obtain ⟨document, hdocument, hdefinition, -⟩ := referenced_eq_ok_iff.1 h
  exact hdocuments document (Lookup.mem_of_find? hdocument).1 definition
    (Lookup.mem_of_find? hdefinition).1

theorem fits_namespaceOrEmpty {target : Target}
    (htarget : ∀ space ∈ target.namespaces, space.LinesFit) (name : String) :
    (target.namespaceOrEmpty name).LinesFit := by
  rw [Target.namespaceOrEmpty]
  cases hspace : target.namespace? name with
  | none => exact fun _ hmember => absurd hmember List.not_mem_nil
  | some space => exact htarget space (Lookup.mem_of_find? hspace).1

section

variable {documents : List Document} (hdocuments : ∀ document ∈ documents, document.LinesFit)

include hdocuments

theorem register_confined (listed : Kind) {space : Namespace} (hspace : space.LinesFit)
    (json : Json) : Confined Fault.Redefines (register documents listed space json) := by
  refine (asObject_confined _ json).bind fun members => ?_
  refine stringAt_confined.bind fun document => ?_
  refine stringAt_confined.bind fun identifier => ?_
  refine (referenced_confined documents _ listed _).bind_of_ok fun definition hdefinition => ?_
  apply faultless_confined
  intro fault hfault
  exact .inNamespace hspace (fits_of_referenced hdocuments hdefinition) hfault

theorem fits_of_register {listed : Kind} {space next : Namespace} {json : Json}
    (hspace : space.LinesFit) (h : register documents listed space json = .ok next) :
    next.LinesFit := by
  simp only [register, Steps.bind_eq_ok, faultless_eq_ok_iff, Namespace.register_eq_ok_iff] at h
  obtain ⟨_, -, document, -, _, -, definition, hdefinition, -, rfl⟩ := h
  intro member hmember
  rw [(Namespace.place_perm _ _).mem_iff, List.mem_cons] at hmember
  rcases hmember with rfl | hmember
  · exact fits_of_referenced hdocuments hdefinition
  · exact hspace member hmember

theorem registerGroup_confined {space : Namespace} (hspace : space.LinesFit)
    (group : String × Json) :
    Confined Fault.Redefines (registerGroup documents space group) := by
  rw [registerGroup]
  split
  · exact confined_refuse trivial
  · exact (asArray_confined _ _).bind fun items =>
      confined_foldlM (fun _ json hspace => register_confined hdocuments _ hspace json)
        (fun _ _ _ => fits_of_register hdocuments) items hspace

theorem fits_of_registerGroup {space next : Namespace} {group : String × Json}
    (hspace : space.LinesFit) (h : registerGroup documents space group = .ok next) :
    next.LinesFit := by
  obtain ⟨kind, -, items, -, hitems⟩ := registerGroup_eq_ok_iff.1 h
  exact Steps.of_foldlM (fun _ _ _ => fits_of_register hdocuments) hspace hitems

theorem addNamespace_confined {target : Target}
    (htarget : ∀ space ∈ target.namespaces, space.LinesFit) (entry : String × Json) :
    Confined Fault.Redefines (addNamespace documents target entry) := by
  refine (asObject_confined _ entry.2).bind fun groups => ?_
  refine Confined.bind ?_ fun space => confined_ok _
  exact confined_foldlM (fun _ group hspace => registerGroup_confined hdocuments hspace group)
    (fun _ _ _ => fits_of_registerGroup hdocuments) groups (fits_namespaceOrEmpty htarget entry.1)

theorem fits_of_addNamespace {target next : Target} {entry : String × Json}
    (htarget : ∀ space ∈ target.namespaces, space.LinesFit)
    (h : addNamespace documents target entry = .ok next) :
    ∀ space ∈ next.namespaces, space.LinesFit := by
  simp only [addNamespace, Steps.bind_eq_ok, Steps.pure_eq_ok] at h
  obtain ⟨groups, -, space, hspace, rfl⟩ := h
  have hfits : space.LinesFit :=
    Steps.of_foldlM (fun _ _ _ => fits_of_registerGroup hdocuments)
      (fits_namespaceOrEmpty htarget entry.1) hspace
  intro other hother
  rcases Target.mem_put hother with rfl | ⟨hother, -⟩
  · exact hfits
  · exact htarget other hother

theorem target_confined (name : String) (json : Json) :
    Confined Fault.Redefines (target documents name json) :=
  (asObject_confined _ json).bind fun entries =>
    confined_foldlM (fun _ entry htarget => addNamespace_confined hdocuments htarget entry)
      (fun _ _ _ => fits_of_addNamespace hdocuments) entries (by simp)

end

theorem model_confined (json : Json) : Confined Fault.Redefines (model json) := by
  refine (asObject_confined _ json).bind fun members => ?_
  refine boolAt_confined.bind fun parsed => ?_
  refine get_confined.bind fun documents => ?_
  refine (asObject_confined _ documents).bind fun entries => ?_
  refine Confined.bind_of_ok (confined_mapM (fun entry => ?_) entries)
    fun documents hdocuments => ?_
  · exact (document_confined entry.1 entry.2).within _
  have hfits : ∀ document ∈ documents, document.LinesFit := by
    intro document hdocument
    obtain ⟨entry, -, hread⟩ := Steps.exists_of_mem_mapM hdocuments hdocument
    have hportable := portable_of_document (within_eq_ok_iff.1 hread)
    exact fun definition hdefinition => (hportable.2.definitions definition hdefinition).line
  refine get_confined.bind fun targets => ?_
  refine (asObject_confined _ targets).bind fun entries => ?_
  refine Confined.bind (confined_mapM (fun entry => ?_) entries) fun targets => confined_ok _
  exact (target_confined hfits entry.1 entry.2).within _

end Decoding

/-- Whatever the bytes, the only faults found in them are definitions whose name is taken. -/
theorem Model.redefines_of_decode {bytes : ByteArray} {error : DecodeError}
    (h : decode bytes = .error error) :
    error.IsOfForm ∨ ∃ fault : Fault, fault.Redefines ∧ error.EndsIn fault := by
  rw [decode] at h
  split at h
  · cases h
    exact Or.inl trivial
  · next json _ => exact Decoding.model_confined json error h

end ThriftIdl

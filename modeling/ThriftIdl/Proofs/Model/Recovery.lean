import ThriftIdl.Proofs.Json.RoundTrip
import ThriftIdl.Proofs.Model.Carried
import ThriftIdl.Proofs.Model.Decoded
import ThriftIdl.Proofs.Model.Parsed

/-!
Models are recovered from their text. A model that calls build, or that was read from bytes, is read
back from its own text with nothing lost but its warnings, and its text does not change.
-/

namespace ThriftIdl

theorem Document.same_self {document : Document} (h : document.namespaces.keys.Nodup) :
    document.same document = true := by
  simp only [same, beq_self_eq_true, Table.sameEntries_self h, Bool.and_self]

theorem Target.same_self {target : Target} (h : (target.namespaces.map (·.name)).Nodup) :
    target.same target = true := by
  simp only [same, beq_self_eq_true, Bool.true_and, List.all_eq_true, beq_iff_eq]
  intro space hspace
  exact (Lookup.find?_eq_some_iff h).2 ⟨hspace, rfl⟩

namespace Model

theorem same_of_portable {model : Model} (h : model.Portable) (warnings : List Warning) :
    { model with warnings := warnings }.same model = true := by
  simp only [same, beq_self_eq_true, Bool.true_and, Bool.and_eq_true, List.all_eq_true, and_true]
  constructor
  · intro document hdocument
    have hfound : model.document? document.name = some document :=
      (Lookup.find?_eq_some_iff h.nodup_documents).2 ⟨hdocument, rfl⟩
    rw [hfound]
    exact Document.same_self (h.documents document hdocument).nodup_keys
  · intro target htarget
    have hfound : model.target? target.name = some target :=
      (Lookup.find?_eq_some_iff h.nodup_targets).2 ⟨htarget, rfl⟩
    rw [hfound]
    exact Target.same_self (h.targets target htarget).nodup_names

theorem fromUTF8?_toUTF8 (text : String) : String.fromUTF8? text.toUTF8 = some text := by
  have hvalid : text.toUTF8.IsValidUTF8 := text.isValidUTF8
  rw [String.fromUTF8?, dif_pos hvalid]
  rfl

/-- What the text of a portable model is read as, before it is taken for a model. -/
theorem ofText?_encode {model : Model} (h : model.Portable) :
    (String.fromUTF8? model.encode.toUTF8).bind Json.ofText? = some model.toJson := by
  rw [fromUTF8?_toUTF8, Option.bind_some, encode]
  exact Json.ofText?_pretty (carried_toJson h)

theorem decode_encode_of_portable {model : Model} (h : model.Portable) :
    decode model.encode.toUTF8 = .ok { model with warnings := [] } := by
  rw [decode, ofText?_encode h]
  exact Decoding.model_toJson h

/-- The text tells portable models apart, but for their warnings. -/
theorem eq_of_encode_eq {left right : Model} (hleft : left.Portable) (hright : right.Portable)
    (h : left.encode = right.encode) :
    left.documents = right.documents ∧ left.targets = right.targets ∧
      left.parsed = right.parsed := by
  have hdecode := decode_encode_of_portable hleft
  rw [h, decode_encode_of_portable hright] at hdecode
  simpa [eq_comm, and_assoc] using hdecode

/-- A model that any calls build from texts that fit, or that is read from any bytes, is recovered
from its text. -/
theorem decode_encode {model : Model}
    (h : (∃ calls : List Call, (∀ call ∈ calls, call.Fits) ∧ model = empty.run calls) ∨
      ∃ bytes, decode bytes = .ok model) :
    ∃ decoded, decode model.encode.toUTF8 = .ok decoded ∧ decoded.same model = true ∧
      decoded = { model with warnings := [] } ∧
      decoded.encode.toUTF8 = model.encode.toUTF8 := by
  have hportable : model.Portable := by
    rcases h with ⟨calls, hcalls, rfl⟩ | ⟨bytes, hbytes⟩
    · apply (built_run calls).portable
      intro pair hpair
      exact fits_of_mem_added hcalls hpair
    · exact portable_of_decode hbytes
  refine ⟨{ model with warnings := [] }, decode_encode_of_portable hportable, ?_, rfl, rfl⟩
  exact same_of_portable hportable []

/-- Calls that parse a service, are refused more documents, and parse in vain. -/
def serviceCalls : List Call := [
  .add "users.thrift"
    "namespace go users\nservice Users \x7b\n  void ping(1: i32 id),\n\x7d",
  .parse,
  .add "late.thrift" "const i32 X = 1",
  .parse]

theorem decode_encode_serviceCalls :
    ∃ decoded, decode (empty.run serviceCalls).encode.toUTF8 = .ok decoded ∧
      decoded.same (empty.run serviceCalls) = true ∧
      decoded.encode.toUTF8 = (empty.run serviceCalls).encode.toUTF8 := by
  have hfits : ∀ call ∈ serviceCalls, call.Fits := by decide +kernel
  obtain ⟨decoded, hdecode, hsame, -, hencode⟩ :=
    decode_encode (Or.inl ⟨serviceCalls, hfits, rfl⟩)
  exact ⟨decoded, hdecode, hsame, hencode⟩

end Model

end ThriftIdl

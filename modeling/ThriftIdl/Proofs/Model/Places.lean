import ThriftIdl.Proofs.Model.Complaints
import ThriftIdl.Proofs.Model.Recovery

/-!
The places that a model's text is refused with. A line is shown by its number, one more than its
index, and a word has room for the numbers of all lines but the last that it can hold. The program
stops when it has to show that one: while it reads the text, if a name is declared there for the
first time, and else not before the error is put in words.
-/

namespace ThriftIdl

/-- A place with the number of its line as it is, however large. -/
def Location.exactText (at_ : Location) : String :=
  at_.document ++ ":" ++ Text.ofInt (at_.line + 1 : Nat)

namespace Location

variable {at_ : Location}

theorem text_of_lt (h : at_.line + 1 < Text.wordSize) : at_.text = .ok at_.exactText := by
  rw [text, number, if_pos h]
  rfl

theorem text_of_last (h : at_.line + 1 = Text.wordSize) : at_.text = .error ⟨at_⟩ := by
  rw [text, number, if_neg (by omega)]
  rfl

end Location

/-- A name that is declared again: where, and where before. The two places are in one document, or
their documents share a namespace of a target. -/
structure Redeclaration where
  name : String
  place : Location
  earlier : Location
  shared? : Option (String × String)

namespace Redeclaration

/-- Where the name should be unique. -/
def scope (again : Redeclaration) : Scope :=
  if again.shared?.isSome then .sharedNamespace else .document

/-- What is said about the name. -/
def reason (again : Redeclaration) : String :=
  match again.shared? with
  | none => s!"identifier `{again.name}` has been declared before in this document "
  | some (space, target) =>
    s!"identifier `{again.name}` is already declared in namespace `{space}` " ++
      s!"of target `{target}` "

/-- The message of the fault, with the earlier place as it is written. -/
def message (again : Redeclaration) (earlier : String) : String :=
  again.reason ++ s!"(previous declaration at {earlier})"

/-- The text of the fault with the exact numbers of both lines. -/
def text (again : Redeclaration) : String :=
  s!"{again.place.exactText}: {again.message again.earlier.exactText}"

/-- The text of the fault's label with the exact number of the earlier line. -/
def labelText (again : Redeclaration) : String :=
  s!"previously declared at {again.earlier.exactText}"

end Redeclaration

/-- The fault is about the name that is declared again, and shows the two places. -/
structure Fault.Shows (fault : Fault) (again : Redeclaration) : Prop where
  location?_eq : fault.location? = some again.place
  category_eq : fault.category = .duplicateIdentifier again.scope again.earlier
  message_eq : fault.message = do return again.message (← again.earlier.text)

theorem Fault.Redefines.exists_shows {fault : Fault} (h : fault.Redefines) :
    ∃ again : Redeclaration, fault.Shows again ∧ again.place.line < Text.wordSize ∧
      again.earlier.line < Text.wordSize := by
  cases h with
  | @inDocument document definition _ hdocument hdefinition hpush =>
    rw [Document.push] at hpush
    split at hpush
    · next earlier hearlier =>
      cases hpush
      refine ⟨⟨definition.name, ⟨document.name, definition.line⟩, ⟨document.name, earlier.line⟩,
        none⟩, ⟨rfl, rfl, ?_⟩, hdefinition, ?_⟩
      · simp only [Fault.withSource, Violation.fault, Option.isSome_some, if_true, Rule.message,
          Rule.previously]
        cases Location.text _ <;> rfl
      · exact hdocument earlier (Lookup.mem_of_find? hearlier).1
    · cases hpush
  | @inNamespace space document definition _ hspace hdefinition hregister =>
    rw [Namespace.register] at hregister
    split at hregister
    · next earlier hearlier =>
      cases hregister
      refine ⟨⟨definition.name, ⟨document, definition.line⟩, earlier,
        some (space.name, space.target)⟩, ⟨rfl, rfl, ?_⟩, hdefinition, ?_⟩
      · simp only [Rule.previously]
        cases Location.text _ <;> rfl
      · obtain ⟨member, hmember, rfl⟩ := Option.map_eq_some_iff.1 hearlier
        exact hspace member (Lookup.mem_of_find? hmember).1
    · cases hregister

namespace Fault.Shows

variable {fault : Fault} {again : Redeclaration} (h : fault.Shows again)

include h

theorem message_of_lt (hearlier : again.earlier.line + 1 < Text.wordSize) :
    fault.message = .ok (again.message again.earlier.exactText) := by
  rw [h.message_eq, Location.text_of_lt hearlier]
  rfl

theorem message_of_last (hearlier : again.earlier.line + 1 = Text.wordSize) :
    fault.message = .error ⟨again.earlier⟩ := by
  rw [h.message_eq, Location.text_of_last hearlier]
  rfl

theorem text_of_lt (hearlier : again.earlier.line + 1 < Text.wordSize)
    (hplace : again.place.line + 1 < Text.wordSize) : fault.text = .ok again.text := by
  rw [Fault.text, h.message_of_lt hearlier, h.location?_eq]
  simp only [Location.text_of_lt hplace]
  rfl

theorem text_of_last (hearlier : again.earlier.line + 1 < Text.wordSize)
    (hplace : again.place.line + 1 = Text.wordSize) : fault.text = .error ⟨again.place⟩ := by
  rw [Fault.text, h.message_of_lt hearlier, h.location?_eq]
  simp only [Location.text_of_last hplace]
  rfl

theorem labelText_of_lt (hearlier : again.earlier.line + 1 < Text.wordSize) :
    fault.labelText = .ok again.labelText := by
  rw [Fault.labelText, h.category_eq]
  simp only [Location.text_of_lt hearlier]
  rfl

end Fault.Shows

namespace DecodeError

/-- What is said about the form of a text shows no line. -/
theorem IsOfForm.exists_texts {error : DecodeError} (h : error.IsOfForm) :
    ∃ texts, error.texts = .ok texts := by
  cases error with
  | refused contexts complaint =>
    cases complaint with
    | fault fault => exact h.elim
    | _ => exact ⟨_, rfl⟩
  | stopped overflow => exact h.elim

section

variable {error : DecodeError} {fault : Fault} {again : Redeclaration} (hshows : fault.Shows again)

include hshows

theorem EndsIn.exists_refused (hends : error.EndsIn fault)
    (hearlier : again.earlier.line + 1 < Text.wordSize) :
    ∃ contexts, error = .refused contexts (.fault fault) := by
  cases hends with
  | refused _ => exact ⟨_, rfl⟩
  | stopped hmessage => cases (hshows.message_of_lt hearlier).symm.trans hmessage

theorem EndsIn.eq_stopped (hends : error.EndsIn fault)
    (hearlier : again.earlier.line + 1 = Text.wordSize) : error = .stopped ⟨again.earlier⟩ := by
  cases hends with
  | refused hmessage => cases (hshows.message_of_last hearlier).symm.trans hmessage
  | stopped hmessage => cases (hshows.message_of_last hearlier).symm.trans hmessage; rfl

section

variable {contexts : List Context} (hearlier : again.earlier.line + 1 < Text.wordSize)

include hearlier

theorem texts_of_lt (hplace : again.place.line + 1 < Text.wordSize) :
    texts (.refused contexts (.fault fault)) =
      .ok (contexts.map Context.text ++ [again.text]) := by
  rw [texts, Complaint.text, hshows.text_of_lt hearlier hplace]
  rfl

theorem texts_of_last (hplace : again.place.line + 1 = Text.wordSize) :
    texts (.refused contexts (.fault fault)) = .error ⟨again.place⟩ := by
  rw [texts, Complaint.text, hshows.text_of_last hearlier hplace]
  rfl

end

/-- The error can be put in words exactly if neither place is on the last line of all. -/
theorem EndsIn.exists_texts_iff (hends : error.EndsIn fault)
    (hplace : again.place.line < Text.wordSize) (hearlier : again.earlier.line < Text.wordSize) :
    (∃ texts, error.texts = .ok texts) ↔
      again.place.line + 1 < Text.wordSize ∧ again.earlier.line + 1 < Text.wordSize := by
  rcases Nat.lt_or_eq_of_le (Nat.succ_le_of_lt hearlier) with hlt | hlast
  · obtain ⟨contexts, rfl⟩ := hends.exists_refused hshows hlt
    rcases Nat.lt_or_eq_of_le (Nat.succ_le_of_lt hplace) with hnext | hnext
    · exact iff_of_true ⟨_, texts_of_lt hshows hlt hnext⟩ ⟨hnext, hlt⟩
    · rw [texts_of_last hshows hlt hnext]
      exact iff_of_false (by simp) (by omega)
  · rw [hends.eq_stopped hshows hlast]
    exact iff_of_false (by simp [texts]) (by omega)

end

end DecodeError

namespace Model

/-- A text is refused for its form, or for a name that is declared again. The program then stops in
the reading if the earlier place is on the last line of all, and in writing the error down if only
the later one is. Else both numbers are exact. -/
theorem shows_of_decode {bytes : ByteArray} {error : DecodeError}
    (h : decode bytes = .error error) :
    (error.IsOfForm ∧ ∃ texts, error.texts = .ok texts) ∨
      ∃ (fault : Fault) (again : Redeclaration), fault.Shows again ∧
        again.place.line < Text.wordSize ∧ again.earlier.line < Text.wordSize ∧
        (again.earlier.line + 1 = Text.wordSize → error = .stopped ⟨again.earlier⟩) ∧
        (again.earlier.line + 1 < Text.wordSize → ∃ contexts : List Context,
          error = .refused contexts (.fault fault) ∧ fault.labelText = .ok again.labelText ∧
          (again.place.line + 1 = Text.wordSize → error.texts = .error ⟨again.place⟩) ∧
          (again.place.line + 1 < Text.wordSize →
            error.texts = .ok (contexts.map Context.text ++ [again.text]))) ∧
        ((∃ texts, error.texts = .ok texts) ↔
          again.place.line + 1 < Text.wordSize ∧ again.earlier.line + 1 < Text.wordSize) := by
  rcases redefines_of_decode h with hform | ⟨fault, hredefines, hends⟩
  · exact Or.inl ⟨hform, hform.exists_texts⟩
  obtain ⟨again, hshows, hplace, hearlier⟩ := hredefines.exists_shows
  refine Or.inr ⟨fault, again, hshows, hplace, hearlier, hends.eq_stopped hshows, fun hlt => ?_,
    hends.exists_texts_iff hshows hplace hearlier⟩
  obtain ⟨contexts, rfl⟩ := hends.exists_refused hshows hlt
  exact ⟨contexts, rfl, hshows.labelText_of_lt hlt, DecodeError.texts_of_last hshows hlt,
    DecodeError.texts_of_lt hshows hlt⟩

/-- A constant that is declared twice, on the given lines. -/
def redeclared (first second : Nat) : Document where
  name := "a.thrift"
  lines := []
  namespaces := [("default", "a")]
  definitions := [⟨⟨"X", first⟩, .const "i32" "1"⟩, ⟨⟨"X", second⟩, .const "i32" "2"⟩]

/-- What is wrong with it. -/
def redeclaredFault (first second : Nat) : Fault :=
  ((Violation.mk second (.redefined "X" first)).fault "a.thrift").withSource []

theorem decode_redeclared {first second : Nat} (hfirst : first < Text.wordSize)
    (hsecond : second < Text.wordSize) :
    decode (encode { documents := [redeclared first second] }).toUTF8 =
      .error ((DecodeError.ofFault (redeclaredFault first second)).within
        (.document "a.thrift")) := by
  have hportable : ∀ definition ∈ (redeclared first second).definitions, definition.Portable := by
    simp only [redeclared, List.forall_mem_cons]
    exact ⟨⟨hfirst, by simp [Body.lines], by simp [Body.functions]⟩,
      ⟨hsecond, by simp [Body.lines], by simp [Body.functions]⟩, by simp⟩
  have hkeys : (redeclared first second).namespaces.keys.Nodup := by simp [redeclared, Table.keys]
  have hcarried :
      Json.Carried Json.maxDepth (toJson { documents := [redeclared first second] }) := by
    change Json.Carried (118 + 9) _
    apply Json.Carried.object
    · simp [Table.keys]
    · simp only [List.forall_mem_cons]
      refine ⟨.bool _, carried_named Document.name (by simp) ?_,
        .object (by simp [Table.keys]) (by simp), by simp⟩
      simp only [List.forall_mem_singleton]
      exact (redeclared first second).carried_toJson hkeys hportable 118
  have hdocument := Decoding.document_toJson_eq hkeys hportable
  rw [decode, encode, fromUTF8?_toUTF8, Option.bind_some, Json.ofText?_pretty hcarried]
  change Decoding.model _ = _
  rw [Decoding.model, toJson]
  rw [Steps.bind_of_ok (Decoding.asObject_eq_ok_iff.2 rfl),
    Steps.bind_of_ok (Decoding.boolAt_eq_ok_iff.2 rfl),
    Steps.bind_of_ok (Decoding.get_eq_ok_iff.2 rfl),
    Steps.bind_of_ok (Decoding.asObject_eq_ok_iff.2 rfl), Steps.bind_eq_error,
    Steps.mapM_eq_error_iff]
  refine Or.inl ⟨[], _, [], rfl, by simp, ?_⟩
  change Decoding.within _
    (Decoding.document (redeclared first second).name (redeclared first second).toJson) = _
  rw [hdocument]
  rfl

theorem shows_of_decode_redeclared :
    ∃ (error : DecodeError) (again : Redeclaration),
      decode (encode { documents := [redeclared 18446744073709551614 1] }).toUTF8 = .error error ∧
        again.earlier = ⟨"a.thrift", 18446744073709551614⟩ ∧
        error.texts = .ok ["decode document `a.thrift`", again.text] := by
  have hdecode : decode (encode { documents := [redeclared 18446744073709551614 1] }).toUTF8 =
      .error _ := decode_redeclared (by decide) (by decide)
  obtain ⟨hform, -⟩ | ⟨fault, again, hshows, -, hfits, hstopped, hrefused, -⟩ :=
    shows_of_decode hdecode
  · exact hform.elim
  rcases Nat.lt_or_eq_of_le (Nat.succ_le_of_lt hfits) with hearlier | hearlier
  · obtain ⟨contexts, herror, -, -, htexts⟩ := hrefused hearlier
    cases herror
    have hplace := Option.some.inj hshows.location?_eq
    refine ⟨_, again, hdecode, ?_, htexts (hplace ▸ by decide)⟩
    exact (Category.duplicateIdentifier.inj hshows.category_eq).2.symm
  · cases hstopped hearlier

/-- A definition on the last line of all cannot be pointed to: the reading stops. -/
theorem not_shows_of_decode :
    decode (encode { documents := [redeclared 18446744073709551615 1] }).toUTF8 =
        .error (.stopped ⟨⟨"a.thrift", 18446744073709551615⟩⟩) ∧
      (Location.mk "a.thrift" 18446744073709551615).exactText = "a.thrift:18446744073709551616" ∧
      ¬ ∀ bytes error, decode bytes = .error error → ∃ texts, error.texts = .ok texts := by
  have hstops : decode (encode { documents := [redeclared 18446744073709551615 1] }).toUTF8 =
      .error (.stopped ⟨⟨"a.thrift", 18446744073709551615⟩⟩) :=
    decode_redeclared (by decide) (by decide)
  refine ⟨hstops, by decide +kernel, fun hshown => ?_⟩
  obtain ⟨texts, htexts⟩ := hshown _ _ hstops
  cases htexts

end Model

end ThriftIdl

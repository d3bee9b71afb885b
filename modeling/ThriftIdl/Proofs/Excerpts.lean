import ThriftIdl.Proofs.Document.Labels

/-!
What faults and warnings show of a document. Its lines are joined by line feeds, and the label on a
line is a stretch of these bytes: it stays inside the line, cuts no character apart, and holds what
the line holds between the blanks around it.
-/

namespace ThriftIdl

namespace Span

/-- What the raw line holds between the blanks around it. -/
structure Core (raw core : String) : Prop where
  around : ∃ indent trail : String, raw = indent ++ core ++ trail ∧
    (∀ c ∈ indent.toList, Text.isBlank c = true) ∧ ∀ c ∈ trail.toList, Text.isBlank c = true
  first : ∀ c ∈ core.toList.head?, Text.isBlank c = false
  last : ∀ c ∈ core.toList.getLast?, Text.isBlank c = false

/-- Nothing but blanks stands on a line exactly if nothing stands between them. -/
theorem Core.eq_empty_iff {raw core : String} (h : Core raw core) :
    core = "" ↔ ∀ c ∈ raw.toList, Text.isBlank c = true := by
  obtain ⟨indent, trail, hraw, hindent, htrail⟩ := h.around
  constructor
  · rintro rfl
    rw [hraw, String.append_empty, String.toList_append, List.forall_mem_append]
    exact ⟨hindent, htrail⟩
  · intro hblank
    rw [← String.toList_eq_nil_iff, ← List.head?_eq_none_iff, Option.eq_none_iff_forall_not_mem]
    intro c hc
    have hmem : c ∈ raw.toList := by
      rw [hraw, String.toList_append, String.toList_append]
      exact List.mem_append_left _ (List.mem_append_right _ (List.mem_of_mem_head? hc))
    have hfirst := h.first c hc
    rw [hblank c hmem] at hfirst
    cases hfirst

theorem core_trimmed (raw : String) : Core raw (trimmed raw) where
  around := by
    obtain ⟨indent, trail, hraw, -, hindent, htrail⟩ := exists_trimmed raw
    exact ⟨indent, trail, hraw, hindent, htrail⟩
  first := by
    rw [trimmed, String.toList_ofList]
    exact Text.isBlank_of_prefix_trimStart (List.rdropWhile_prefix _ _)
  last := by
    rw [trimmed, String.toList_ofList]
    exact Text.of_getLast?_dropEndWhile

/-- The span is a stretch of whole characters of the lines joined by line feeds. It stays on the
line with the index, and its bytes are those of the text. -/
structure Marks (span : Span) (lines : List String) (number : Nat) (text : String) : Prop where
  fits : span.offset + span.length ≤ ("\n".intercalate lines).utf8ByteSize
  start_valid : (⟨span.offset⟩ : String.Pos.Raw).IsValid ("\n".intercalate lines)
  end_valid : (⟨span.offset + span.length⟩ : String.Pos.Raw).IsValid ("\n".intercalate lines)
  on_line : ∃ before raw after : String, "\n".intercalate lines = before ++ raw ++ after ∧
    before = ended (lines.take number) ∧ lines[number]? = some raw ∧
    before.utf8ByteSize ≤ span.offset ∧ span.offset + span.length ≤ (before ++ raw).utf8ByteSize
  bytes : ("\n".intercalate lines).toByteArray.extract span.offset (span.offset + span.length) =
    text.toByteArray

/-- The bytes of a text between a part before it and a part after it. -/
theorem extract_middle (before text after : String) :
    (before ++ text ++ after).toByteArray.extract before.utf8ByteSize
      (before.utf8ByteSize + text.utf8ByteSize) = text.toByteArray := by
  rw [String.append_assoc, String.toByteArray_append, String.toByteArray_append,
    ← String.size_toByteArray, ← String.size_toByteArray]
  have h := ByteArray.extract_append_size_add (a := before.toByteArray)
    (b := text.toByteArray ++ after.toByteArray) (i := 0) (j := text.toByteArray.size)
  rw [Nat.add_zero] at h
  rw [h]
  exact ByteArray.extract_append_eq_left rfl

/-- What a span covers it marks: it counts whole texts, so it starts and ends between characters. -/
theorem Covers.marks {span : Span} {lines : List String} {number : Nat} {raw : String}
    (h : span.Covers lines number raw) : span.Marks lines number (trimmed raw) := by
  obtain ⟨hget, indent, trail, hraw, -, -, htext, hoffset, hlength⟩ := h
  generalize trimmed raw = core at hraw htext hlength ⊢
  refine ⟨?_, ?_, ?_, ?_, ?_⟩
  · rw [hoffset, hlength, htext]
    simp only [String.utf8ByteSize_append]
    omega
  · rw [String.Pos.Raw.isValid_iff_exists_append, hoffset]
    exact ⟨_, _, htext.trans String.append_assoc, rfl⟩
  · rw [String.Pos.Raw.isValid_iff_exists_append, hoffset, hlength, ← String.utf8ByteSize_append]
    exact ⟨_, _, htext, rfl⟩
  · refine ⟨ended (lines.take number), raw, begun (lines.drop (number + 1)), ?_, rfl, hget, ?_, ?_⟩
    · rw [htext, hraw]
      simp only [String.append_assoc]
    · rw [hoffset, String.utf8ByteSize_append]
      omega
    · rw [hoffset, hlength, hraw]
      simp only [String.utf8ByteSize_append]
      omega
  · rw [hoffset, hlength, htext]
    exact extract_middle _ _ _

end Span

/-- The label on a fault with the lines of its document attached. -/
theorem Fault.label?_withSource {fault : Fault} {place : Location}
    (h : fault.location? = some place) (lines : List String) :
    (fault.withSource lines).label? =
      (Span.ofLine? lines place.line).map fun span => ⟨fault.labelText, span⟩ := by
  obtain ⟨hplace, hsource⟩ := source?_withSource h lines
  have htext : (fault.withSource lines).labelText = fault.labelText := by
    rw [withSource_eq]
    split
    · rfl
    · rfl
  rw [label?, hplace, hsource, htext, Option.map_eq_bind]
  rfl

/-- The label on a warning with the lines of its document attached. -/
theorem Warning.label?_withSource (warning : Warning) (lines : List String) :
    (warning.withSource lines).label? =
      (Span.ofLine? lines warning.location.line).map fun span => ⟨.ok "ignored", span⟩ := by
  rw [Option.map_eq_bind]
  rfl

/-- Faults and warnings that name a line of the document are labelled on that line. The label marks
the trimmed text of the line: what stands there between the blanks around it, and nothing on a blank
line. If the document lacks the line, there is no span and no label. -/
theorem Span.labels_withSource (lines : List String) (place : Location) :
    (lines.length ≤ place.line → Span.ofLine? lines place.line = none ∧
      (∀ fault : Fault, fault.location? = some place → (fault.withSource lines).label? = none) ∧
      ∀ warning : Warning, warning.location = place → (warning.withSource lines).label? = none) ∧
    ∀ raw, lines[place.line]? = some raw →
      Span.Core raw (Span.trimmed raw) ∧
      (Span.trimmed raw = "" ↔ ∀ c ∈ raw.toList, Text.isBlank c = true) ∧
      ∃ span, Span.ofLine? lines place.line = some span ∧
        span.Marks lines place.line (Span.trimmed raw) ∧
        (∀ fault : Fault, fault.location? = some place →
          (fault.withSource lines).label? = some ⟨fault.labelText, span⟩) ∧
        ∀ warning : Warning, warning.location = place →
          (warning.withSource lines).label? = some ⟨.ok "ignored", span⟩ := by
  constructor
  · intro hplace
    have hspan : Span.ofLine? lines place.line = none := by
      rw [Span.ofLine?, List.getElem?_eq_none hplace, Option.map_none]
    refine ⟨hspan, ?_, ?_⟩
    · intro fault hfault
      rw [Fault.label?_withSource hfault, hspan, Option.map_none]
    · rintro warning rfl
      rw [Warning.label?_withSource, hspan, Option.map_none]
  · intro raw hraw
    have hcore := Span.core_trimmed raw
    obtain ⟨span, hspan, hcovers⟩ := Span.ofLine?_covers hraw
    refine ⟨hcore, hcore.eq_empty_iff, span, hspan, hcovers.marks, ?_, ?_⟩
    · intro fault hfault
      rw [Fault.label?_withSource hfault, hspan, Option.map_some]
    · rintro warning rfl
      rw [Warning.label?_withSource, hspan, Option.map_some]

/-- Lines with characters of two and three bytes, and a line of blanks at the end. -/
def Span.indented : List String := ["# \u00e9", "\u3000\tstrcut S \x7b \u00a0", " \u2003"]

/-- The fault on the second line and the warning on the third, which is blank; neither is on a
fourth. -/
theorem Span.labels_withSource_indented :
    (Fault.withSource ⟨.unexpectedKeyword, .ok "", some ⟨"a.thrift", 1⟩, none, none⟩ indented).label? =
      some ⟨.ok "here", ⟨9, 10⟩⟩ ∧
    Span.Marks ⟨9, 10⟩ indented 1 "strcut S \x7b" ∧
    (Warning.withSource ⟨⟨"a.thrift", 2⟩, "", none⟩ indented).label? = some ⟨.ok "ignored", ⟨27, 0⟩⟩ ∧
    Span.Marks ⟨27, 0⟩ indented 2 "" ∧
    (Warning.withSource ⟨⟨"a.thrift", 3⟩, "", none⟩ indented).label? = none := by
  have hstruct : Span.trimmed "\u3000\tstrcut S \x7b \u00a0" = "strcut S \x7b" := by decide +kernel
  have hblank : Span.trimmed " \u2003" = "" := by decide +kernel
  have hsecond : Span.ofLine? indented 1 = some ⟨9, 10⟩ := by decide +kernel
  have hthird : Span.ofLine? indented 2 = some ⟨27, 0⟩ := by decide +kernel
  obtain ⟨-, -, span, hspan, hmarks, hfault, -⟩ :=
    (labels_withSource indented ⟨"a.thrift", 1⟩).2 _ rfl
  cases hsecond.symm.trans hspan
  obtain ⟨-, -, span, hspan, hmarks', -, hwarning⟩ :=
    (labels_withSource indented ⟨"a.thrift", 2⟩).2 _ rfl
  cases hthird.symm.trans hspan
  rw [hstruct] at hmarks
  rw [hblank] at hmarks'
  have hnone := ((labels_withSource indented ⟨"a.thrift", 3⟩).1 (by decide)).2.2
  exact ⟨hfault _ rfl, hmarks, hwarning _ rfl, hmarks', hnone _ rfl⟩

end ThriftIdl

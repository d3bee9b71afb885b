import ThriftIdl.Proofs.Document.Faults
import ThriftIdl.Proofs.Spans

/-!
The labels of faults. A document that cannot be read is at fault on a line that holds more than
blanks, if it has one, and the fault labels the trimmed text of this line.
-/

namespace ThriftIdl

namespace Fault

variable {fault : Fault} {place : Location} {lines : List String}

theorem source?_withSource (h : fault.location? = some place) (lines : List String) :
    (fault.withSource lines).location? = some place ∧
      (fault.withSource lines).source? = some lines := by
  rw [withSource_eq, if_pos (Option.isSome_of_eq_some h)]
  exact ⟨h, rfl⟩

/-- The label of a fault on a line of its source covers the line. -/
theorem exists_label_covers {raw : String} (hplace : fault.location? = some place)
    (hsource : fault.source? = some lines) (hraw : lines[place.line]? = some raw) :
    ∃ label, fault.label? = some label ∧ label.span.Covers lines place.line raw := by
  obtain ⟨span, hspan, hcovers⟩ := Span.ofLine?_covers hraw
  refine ⟨⟨fault.labelText, span⟩, ?_, hcovers⟩
  simp only [label?, hplace, hsource, hspan, Option.bind_eq_bind, Option.bind_some,
    Option.pure_def]

end Fault

theorem Violation.location?_fault {violation : Violation} (h : violation.rule ≠ .noTokens)
    (document : String) :
    (violation.fault document).location? = some ⟨document, violation.line⟩ := by
  obtain ⟨line, rule⟩ := violation
  cases rule with
  | noTokens => exact absurd rfl h
  | _ => rfl

namespace Document

variable {lines : List String}

theorem lastLine_lt (h : lines ≠ []) : lastLine lines < lines.length := by
  have hlength := List.length_pos_iff.2 h
  rw [lastLine]
  omega

/-- If a line is written, then the last line that is. -/
theorem written_lastLine {raw : String} (hraw : raw ∈ lines) (hwritten : isWritten raw = true) :
    Line.Written lines (lastLine lines) := by
  have hsplit : lines.reverse.takeWhile (!isWritten ·) ++ lines.reverse.dropWhile (!isWritten ·) =
      lines.reverse := List.takeWhile_append_dropWhile
  rw [lastLine]
  generalize lines.reverse.takeWhile (!isWritten ·) = blanks at hsplit ⊢
  cases hrest : lines.reverse.dropWhile (!isWritten ·) with
  | nil =>
    have hblank := List.dropWhile_eq_nil_iff.1 hrest raw (List.mem_reverse.2 hraw)
    rw [hwritten] at hblank
    cases hblank
  | cons last rest =>
    have hlast := List.head?_dropWhile_not (!isWritten ·) lines.reverse
    rw [hrest] at hsplit hlast
    have hlines : lines = rest.reverse ++ last :: blanks.reverse := by
      rw [← lines.reverse_reverse, ← hsplit, List.reverse_append, List.reverse_cons,
        List.append_assoc, List.singleton_append]
    have hnumber : lines.length - 1 - blanks.length = rest.reverse.length := by
      rw [hlines, List.length_append, List.length_cons, List.length_reverse, List.length_reverse]
      omega
    refine ⟨last, ?_, by simpa using hlast⟩
    rw [hnumber, hlines]
    simp

/-- The line of a fault is in range if the document has a line, and written if one of them is. -/
theorem line_of_readDefinitions {document : Document} {violation : Violation}
    (h : document.readDefinitions = .error violation) :
    (document.lines ≠ [] → violation.line < document.lines.length) ∧
      ∀ raw ∈ document.lines, isWritten raw = true →
        Line.Written document.lines violation.line := by
  rcases readDefinitions_error h with ⟨hwritten, -⟩ | rfl
  · exact ⟨fun _ => hwritten.lt_length, fun _ _ _ => hwritten⟩
  · exact ⟨lastLine_lt, fun raw hraw hwritten => written_lastLine hraw hwritten⟩

/-- A document that cannot be read is at fault on one of its lines and carries them. If it has a
line, the label covers the trimmed text of the faulty one, and if a line holds more than blanks, the
label does. -/
theorem label_of_read {document : Document} {fault : Fault} (h : document.read = .error fault) :
    ∃ line, fault.location? = some (document.place line) ∧
      fault.source? = some document.lines ∧
      (document.lines ≠ [] → ∃ raw label, fault.label? = some label ∧
        label.span.Covers document.lines line raw ∧
        ((∃ raw ∈ document.lines, isWritten raw = true) → 0 < label.span.length)) := by
  obtain ⟨violation, hviolation, rfl⟩ := read_eq_error_iff.1 h
  obtain ⟨hline, hwritten⟩ := line_of_readDefinitions hviolation
  have hrule := rule_ne_noTokens hviolation
  obtain ⟨hplace, hsource⟩ :=
    Fault.source?_withSource (Violation.location?_fault hrule document.name) document.lines
  refine ⟨violation.line, hplace, hsource, ?_⟩
  intro hlines
  have hraw := List.getElem?_eq_getElem (hline hlines)
  obtain ⟨label, hlabel, hcovers⟩ := Fault.exists_label_covers hplace hsource hraw
  refine ⟨_, label, hlabel, hcovers, ?_⟩
  rintro ⟨other, hother, hotherWritten⟩
  obtain ⟨raw, hget, hrawWritten⟩ := hwritten other hother hotherWritten
  cases hraw.symm.trans hget
  exact hcovers.length_pos_iff.2 hrawWritten

/-- A document with a block that is never closed, after a comment of more bytes than characters. -/
def unclosed : Document := ofSource "a.thrift" "# \u00e9\n\n \t struct S \x7b  \n\n"

/-- The fault of reading the document. -/
def unclosedFault : Fault where
  category := .invalidShape (.definition .struct)
  message := .ok "invalid struct definition: block is never closed with `\x7d`"
  location? := some ⟨"a.thrift", 2⟩
  source? := some unclosed.lines

/-- The label covers the ten bytes that open the block. Before them stand nine: the comment, two line
feeds and the indentation. -/
theorem label_of_read_unclosed : unclosed.read = .error unclosedFault ∧
    unclosedFault.label? = some ⟨.ok "here", ⟨9, 10⟩⟩ ∧
    Span.Covers ⟨9, 10⟩ unclosed.lines 2 " \t struct S \x7b  " := by
  have hread : unclosed.read = .error unclosedFault := by decide +kernel
  have hlabel : unclosedFault.label? = some ⟨.ok "here", ⟨9, 10⟩⟩ := by decide +kernel
  obtain ⟨line, hplace, -, hlabelled⟩ := label_of_read hread
  obtain ⟨raw, label, hlabel', hcovers, -⟩ := hlabelled (by decide +kernel)
  cases hplace
  cases hlabel.symm.trans hlabel'
  have hraw : unclosed.lines[2]? = some " \t struct S \x7b  " := by decide +kernel
  cases hraw.symm.trans hcovers.1
  exact ⟨hread, hlabel, hcovers⟩

end Document

end ThriftIdl

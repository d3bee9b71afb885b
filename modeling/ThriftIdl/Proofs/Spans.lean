import ThriftIdl.Document.Reading
import ThriftIdl.Proofs.Joining

/-!
What the span of a line covers. The lines of a document are joined by line feeds. A span counts the
bytes of the lines before its line, each with its line feed, and of the indentation, and then covers
what the line holds without the blanks around it.
-/

namespace ThriftIdl

namespace Span

/-- The raw line without the blanks around it. -/
def trimmed (raw : String) : String := String.ofList (Text.trim raw.toList)

/-- The lines with a line feed after each. -/
def ended (lines : List String) : String := String.join (lines.map (· ++ "\n"))

/-- The lines with a line feed before each. -/
def begun (lines : List String) : String := String.join (lines.map ("\n" ++ ·))

/-- The span covers the trimmed text of the raw line with the index, and nothing else of the lines
joined by line feeds: before it stand the lines before this one and its indentation, after it the
blanks that the line ends in and the lines after it. -/
def Covers (span : Span) (lines : List String) (number : Nat) (raw : String) : Prop :=
  lines[number]? = some raw ∧ ∃ indent trail : String,
    raw = indent ++ trimmed raw ++ trail ∧
    (∀ c ∈ indent.toList, Text.isBlank c = true) ∧ (∀ c ∈ trail.toList, Text.isBlank c = true) ∧
    "\n".intercalate lines =
      ended (lines.take number) ++ indent ++ trimmed raw ++
        (trail ++ begun (lines.drop (number + 1))) ∧
    span.offset = (ended (lines.take number) ++ indent).utf8ByteSize ∧
    span.length = (trimmed raw).utf8ByteSize

theorem intercalate_cons (raw : String) (lines : List String) :
    "\n".intercalate (raw :: lines) = raw ++ begun lines := by
  induction lines generalizing raw with
  | nil => simp [begun]
  | cons next lines ih =>
    rw [String.intercalate_cons_cons, ih next, begun, begun, List.map_cons, String.join_cons]
    simp only [String.append_assoc]

theorem ended_cons (line : String) (lines : List String) :
    ended (line :: lines) = line ++ "\n" ++ ended lines := by
  rw [ended, List.map_cons, String.join_cons, ended]

/-- Joined lines are those before one of them, the one, and those after it. -/
theorem intercalate_middle (before : List String) (raw : String) (after : List String) :
    "\n".intercalate (before ++ raw :: after) = ended before ++ raw ++ begun after := by
  induction before with
  | nil => simpa [ended] using intercalate_cons raw after
  | cons line before ih =>
    have hne : before ++ raw :: after ≠ [] := by simp
    rw [List.cons_append, String.intercalate_cons_of_ne_nil hne, ih, ended_cons]
    simp only [String.append_assoc]

/-- The count of the bytes before a line. -/
theorem foldl_size (lines : List String) (size : Nat) :
    lines.foldl (fun size line => size + line.utf8ByteSize + 1) size =
      size + (ended lines).utf8ByteSize := by
  induction lines generalizing size with
  | nil => simp [ended]
  | cons line lines ih =>
    have hfeed : "\n".utf8ByteSize = 1 := rfl
    rw [List.foldl_cons, ih, ended_cons, String.utf8ByteSize_append, String.utf8ByteSize_append,
      hfeed]
    omega

/-- A raw line is its indentation, its trimmed text and the blanks at its end. -/
theorem exists_trimmed (raw : String) : ∃ indent trail : String,
    raw = indent ++ trimmed raw ++ trail ∧
    String.ofList (Text.trimStart raw.toList) = trimmed raw ++ trail ∧
    (∀ c ∈ indent.toList, Text.isBlank c = true) ∧
    ∀ c ∈ trail.toList, Text.isBlank c = true := by
  obtain ⟨indent, hstart, hindent⟩ := Text.exists_trimStart raw.toList
  obtain ⟨trail, hend, htrail⟩ :=
    Text.exists_dropEndWhile Text.isBlank (Text.trimStart raw.toList)
  have hunindented : String.ofList (Text.trimStart raw.toList) =
      trimmed raw ++ String.ofList trail := by
    rw [trimmed, ← String.ofList_append, Text.trim, Text.trimEnd, ← hend]
  refine ⟨String.ofList indent, String.ofList trail, ?_, hunindented, ?_, ?_⟩
  · rw [String.append_assoc, ← hunindented, ← String.ofList_append, ← hstart, String.ofList_toList]
  · rwa [String.toList_ofList]
  · rwa [String.toList_ofList]

/-- The span of a line covers its trimmed text. No part of it is cut off at the end of the text. -/
theorem ofLine?_covers {lines : List String} {number : Nat} {raw : String}
    (h : lines[number]? = some raw) :
    ∃ span, ofLine? lines number = some span ∧ span.Covers lines number raw := by
  obtain ⟨indent, trail, hraw, hunindented, hindent, htrail⟩ := exists_trimmed raw
  have htext : "\n".intercalate lines =
      ended (lines.take number) ++ indent ++ trimmed raw ++
        (trail ++ begun (lines.drop (number + 1))) := by
    obtain ⟨hnumber, hget⟩ := List.getElem?_eq_some_iff.1 h
    calc "\n".intercalate lines
        = "\n".intercalate (lines.take number ++ raw :: lines.drop (number + 1)) := by
          rw [← hget, ← List.drop_eq_getElem_cons hnumber, List.take_append_drop]
      _ = ended (lines.take number) ++ (indent ++ trimmed raw ++ trail) ++
            begun (lines.drop (number + 1)) := by
          rw [intercalate_middle, ← hraw]
      _ = _ := by simp only [String.append_assoc]
  have hsize := congrArg String.utf8ByteSize htext
  have hrawSize := congrArg String.utf8ByteSize hraw
  have hunindentedSize := congrArg String.utf8ByteSize hunindented
  simp only [String.utf8ByteSize_append] at hsize hrawSize hunindentedSize
  refine ⟨⟨(ended (lines.take number) ++ indent).utf8ByteSize, (trimmed raw).utf8ByteSize⟩,
    ?_, h, indent, trail, hraw, hindent, htrail, htext, rfl, rfl⟩
  rw [ofLine?, h, Option.map_some, foldl_size, Nat.zero_add, Option.some_inj, Span.mk.injEq,
    String.utf8ByteSize_append]
  change min _ _ = _ ∧ min (trimmed raw).utf8ByteSize _ = _
  omega

/-- What a span covers is empty exactly if its line is blank. -/
theorem Covers.length_pos_iff {span : Span} {lines : List String} {number : Nat} {raw : String}
    (h : span.Covers lines number raw) : 0 < span.length ↔ Document.isWritten raw = true := by
  obtain ⟨-, -, -, -, -, -, -, -, hlength⟩ := h
  rw [hlength, trimmed, Nat.pos_iff_ne_zero, ne_eq, String.utf8ByteSize_eq_zero_iff,
    String.ofList_eq_empty_iff, Document.isWritten, Bool.not_eq_true', List.isEmpty_eq_false_iff]

end Span

end ThriftIdl

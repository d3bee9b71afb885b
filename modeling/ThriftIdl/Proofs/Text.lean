import ThriftIdl.Line
import ThriftIdl.Text.Lines

/-!
The size of texts. A text has no more lines than bytes, and the meaningful lines of a document are
numbered in order, below the number of its lines.
-/

namespace ThriftIdl

namespace Text

theorem length_lines_le (text : List Char) : (lines text).length ≤ text.length := by
  fun_induction lines text with
  | case1 => exact Nat.le_refl _
  | case2 rest ih =>
    rw [List.length_cons, List.length_cons]
    omega
  | case3 rest ih =>
    rw [List.length_cons, List.length_cons, List.length_cons]
    omega
  | case4 c rest hfeed hend hrest ih =>
    rw [List.length_singleton, List.length_cons]
    omega
  | case5 c rest hfeed hend line more hrest ih =>
    rw [hrest, List.length_cons] at ih
    rw [List.length_cons, List.length_cons]
    omega

/-- A text without line feeds is one line. -/
theorem lines_eq_singleton {text : List Char} (hne : text ≠ []) (h : ∀ c ∈ text, c ≠ '\n') :
    lines text = [text] := by
  fun_induction lines text with
  | case1 => exact absurd rfl hne
  | case2 rest ih => exact absurd rfl (h '\n' List.mem_cons_self)
  | case3 rest ih => exact absurd rfl (h '\n' (by simp))
  | case4 c rest hfeed hend hrest ih =>
    by_cases hnil : rest = []
    · rw [hnil]
    · rw [ih hnil (List.forall_mem_cons.1 h).2] at hrest
      cases hrest
  | case5 c rest hfeed hend line more hrest ih =>
    have hnil : rest ≠ [] := by
      rintro rfl
      cases hrest
    rw [ih hnil (List.forall_mem_cons.1 h).2] at hrest
    cases hrest
    rfl

theorem length_le_utf8ByteSize (text : List Char) :
    text.length ≤ (String.ofList text).utf8ByteSize := by
  induction text with
  | nil => exact Nat.zero_le _
  | cons c text ih =>
    have hsize := c.utf8Size_pos
    rw [String.ofList_cons, String.utf8ByteSize_append, String.utf8ByteSize_singleton,
      List.length_cons]
    omega

theorem length_linesOf_le (text : String) : (linesOf text).length ≤ text.utf8ByteSize := by
  have hlines := length_lines_le text.toList
  have hsize := length_le_utf8ByteSize text.toList
  rw [String.ofList_toList] at hsize
  rw [linesOf, List.length_map]
  omega

end Text

namespace Line

theorem number_of_ofRaw? {number : Nat} {raw : String} {line : Line}
    (h : ofRaw? number raw = some line) : line.number = number := by
  rw [ofRaw?] at h
  split at h
  · cases h
  · cases h
    rfl

/-- A meaningful line is left of the raw line of its number. -/
theorem exists_raw_of_mem_meaningfulFrom {first : Nat} {raws : List String} {line : Line}
    (h : line ∈ meaningfulFrom first raws) :
    ∃ i raw, raws[i]? = some raw ∧ line.number = first + i ∧
      ofRaw? line.number raw = some line := by
  induction raws generalizing first with
  | nil => exact absurd h List.not_mem_nil
  | cons raw raws ih =>
    rw [meaningfulFrom, List.mem_append] at h
    rcases h with h | h
    · rw [Option.mem_toList] at h
      have hnumber := number_of_ofRaw? h
      exact ⟨0, raw, rfl, hnumber, by rwa [hnumber]⟩
    · obtain ⟨i, found, hfound, hnumber, hline⟩ := ih h
      exact ⟨i + 1, found, hfound, by omega, hline⟩

theorem number_lt_of_mem_meaningful {raws : List String} {line : Line}
    (h : line ∈ meaningful raws) : line.number < raws.length := by
  obtain ⟨i, raw, hraw, hnumber, -⟩ := exists_raw_of_mem_meaningfulFrom h
  obtain ⟨hi, -⟩ := List.getElem?_eq_some_iff.1 hraw
  omega

/-- The meaningful lines stand in the order of their numbers. -/
theorem pairwise_meaningfulFrom (first : Nat) (raws : List String) :
    (meaningfulFrom first raws).Pairwise (·.number < ·.number) := by
  induction raws generalizing first with
  | nil => exact List.Pairwise.nil
  | cons raw raws ih =>
    have hlater : ∀ line ∈ meaningfulFrom (first + 1) raws, first < line.number := by
      intro line hline
      obtain ⟨i, -, -, hnumber, -⟩ := exists_raw_of_mem_meaningfulFrom hline
      omega
    rw [meaningfulFrom]
    cases hraw : ofRaw? first raw with
    | none => exact ih (first + 1)
    | some line =>
      refine List.pairwise_cons.2 ⟨?_, ih (first + 1)⟩
      rwa [number_of_ofRaw? hraw]

theorem meaningfulFrom_append (first : Nat) (raws more : List String) :
    meaningfulFrom first (raws ++ more) =
      meaningfulFrom first raws ++ meaningfulFrom (first + raws.length) more := by
  induction raws generalizing first with
  | nil => rfl
  | cons raw raws ih =>
    rw [List.cons_append, meaningfulFrom, meaningfulFrom, ih, List.length_cons, List.append_assoc]
    congr 3
    omega

end Line

end ThriftIdl

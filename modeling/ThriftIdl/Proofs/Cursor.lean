import ThriftIdl.Line.Cursor
import ThriftIdl.Proofs.Text

/-!
The cursor over the meaningful lines of a document. What it has still to deliver is an end of them:
delivering takes the first of these away, and taking back puts it before them again. Every
meaningful line is delivered, and no other line.
-/

namespace ThriftIdl.Line.Cursor

theorem rest_start (lines : List String) : (start lines).rest = meaningful lines := by
  simp [rest, start]

/-- The lines to come stand in the order of their numbers. -/
theorem pairwise_rest (cursor : Cursor) : cursor.rest.Pairwise (·.number < ·.number) :=
  (pairwise_meaningfulFrom 0 cursor.lines).filter _

theorem mem_rest {cursor : Cursor} {line : Line} :
    line ∈ cursor.rest ↔ line ∈ meaningful cursor.lines ∧ cursor.next ≤ line.number := by
  simp [rest]

theorem advance_of_cons {cursor : Cursor} {line : Line} {more : List Line}
    (h : cursor.rest = line :: more) :
    cursor.advance = (some line, ⟨cursor.lines, line.number + 1, some line.number⟩) := by
  rw [advance, h]

theorem advance_of_nil {cursor : Cursor} (h : cursor.rest = []) :
    cursor.advance = (none, ⟨cursor.lines, cursor.lines.length, cursor.current⟩) := by
  rw [advance, h]

/-- The line delivered is the first of those to come. -/
theorem advance_fst (cursor : Cursor) : cursor.advance.1 = cursor.rest.head? := by
  cases hrest : cursor.rest with
  | nil => rw [advance_of_nil hrest, List.head?_nil]
  | cons line more => rw [advance_of_cons hrest, List.head?_cons]

/-- After a delivery the other lines are still to come. -/
theorem rest_advance (cursor : Cursor) : cursor.advance.2.rest = cursor.rest.tail := by
  cases hrest : cursor.rest with
  | nil =>
    rw [advance_of_nil hrest, List.tail_nil, rest, List.filter_eq_nil_iff]
    intro line hline
    have hlast := number_lt_of_mem_meaningful hline
    simpa using hlast
  | cons line more =>
    have hordered := cursor.pairwise_rest
    rw [hrest, List.pairwise_cons] at hordered
    have hline : line ∈ cursor.rest := hrest ▸ List.mem_cons_self
    have hnext := (mem_rest.1 hline).2
    have hmore : more.filter (line.number + 1 ≤ ·.number) = more := by
      rw [List.filter_eq_self]
      intro other hother
      exact decide_eq_true (hordered.1 other hother)
    rw [advance_of_cons hrest, List.tail_cons, rest_beyond (Nat.le_succ_of_le hnext), hrest,
      List.filter_cons_of_neg (by simp), hmore]

/-- The line delivered last that is taken back is to come again. -/
theorem rest_rewind_advance {cursor : Cursor} (h : cursor.rest ≠ []) :
    cursor.advance.2.rewind.rest = cursor.rest := by
  obtain ⟨line, more, hrest⟩ := List.exists_cons_of_ne_nil h
  have hordered := cursor.pairwise_rest
  rw [hrest, List.pairwise_cons] at hordered
  have hline : line ∈ cursor.rest := hrest ▸ List.mem_cons_self
  have hnext := (mem_rest.1 hline).2
  rw [advance_of_cons hrest, rewind, rest, rest]
  apply List.filter_congr
  intro other hother
  rw [decide_eq_decide]
  constructor
  · intro hle
    exact Nat.le_trans hnext hle
  · intro hle
    have hmem : other ∈ cursor.rest := mem_rest.2 ⟨hother, hle⟩
    rw [hrest] at hmem
    rcases List.mem_cons.1 hmem with rfl | hmem
    · exact Nat.le_refl _
    · exact Nat.le_of_lt (hordered.1 other hmem)

/-- A cursor that delivers nothing has nothing to come, then or later. -/
theorem rest_of_ended {cursor after : Cursor} (h : cursor.advance = (none, after)) :
    cursor.rest = [] ∧ after.rest = [] := by
  have hfirst := cursor.advance_fst
  have hrest := cursor.rest_advance
  rw [h] at hfirst hrest
  have hnil : cursor.rest = [] := List.head?_eq_none_iff.1 hfirst.symm
  rw [hnil] at hrest
  exact ⟨hnil, hrest⟩

/-- A line that is delivered was the first to come. The cursor has its number, and it is the first
to come again if it is taken back. -/
theorem rest_of_delivered {cursor after : Cursor} {line : Line}
    (h : cursor.advance = (some line, after)) :
    cursor.rest = line :: after.rest ∧ after.lineNumber = line.number ∧
      after.rewind.rest = cursor.rest := by
  have hfirst := cursor.advance_fst
  have hrest := cursor.rest_advance
  rw [h] at hfirst hrest
  obtain ⟨more, hmore⟩ := List.head?_eq_some_iff.1 hfirst.symm
  have hne : cursor.rest ≠ [] := hmore ▸ List.cons_ne_nil line more
  have hback := rest_rewind_advance hne
  have hafter := advance_of_cons hmore
  rw [h] at hback hafter
  rw [hmore, List.tail_cons] at hrest
  cases hafter
  exact ⟨by rw [hmore, hrest], rfl, hback⟩

/-- The cursors that deliveries and taking back make of the one before the first line. -/
inductive Reached (lines : List String) : Cursor → Prop where
  | start : Reached lines (start lines)
  | advance {cursor : Cursor} (h : Reached lines cursor) : Reached lines cursor.advance.2
  | rewind {cursor : Cursor} (h : Reached lines cursor) : Reached lines cursor.rewind

/-- A cursor over the raw lines delivers the line, at once or later. -/
def Delivers (lines : List String) (line : Line) : Prop :=
  ∃ cursor, Reached lines cursor ∧ cursor.advance.1 = some line

theorem lines_advance (cursor : Cursor) : cursor.advance.2.lines = cursor.lines := by
  rw [advance]
  split <;> rfl

theorem lines_rewind (cursor : Cursor) : cursor.rewind.lines = cursor.lines := by
  rw [rewind]
  split <;> rfl

theorem Reached.lines_eq {lines : List String} {cursor : Cursor} (h : Reached lines cursor) :
    cursor.lines = lines := by
  induction h with
  | start => rfl
  | advance _ ih => rw [lines_advance, ih]
  | rewind _ ih => rw [lines_rewind, ih]

/-- After so many deliveries the meaningful lines after these are still to come. -/
theorem exists_rest_eq_drop (lines : List String) (count : Nat) :
    ∃ cursor, Reached lines cursor ∧ cursor.rest = (meaningful lines).drop count := by
  induction count with
  | zero => exact ⟨_, .start, by rw [rest_start, List.drop_zero]⟩
  | succ count ih =>
    obtain ⟨cursor, hreached, hrest⟩ := ih
    exact ⟨_, .advance hreached, by rw [rest_advance, hrest, List.tail_drop]⟩

/-- The lines delivered are the meaningful ones. -/
theorem delivers_iff {lines : List String} {line : Line} :
    Delivers lines line ↔ line ∈ meaningful lines := by
  constructor
  · rintro ⟨cursor, hreached, hline⟩
    rw [advance_fst] at hline
    have hmem := (mem_rest.1 (List.mem_of_mem_head? hline)).1
    rwa [hreached.lines_eq] at hmem
  · intro hline
    obtain ⟨count, hcount⟩ := List.getElem?_of_mem hline
    obtain ⟨cursor, hreached, hrest⟩ := exists_rest_eq_drop lines count
    refine ⟨cursor, hreached, ?_⟩
    rw [advance_fst, hrest, List.head?_drop, hcount]

end ThriftIdl.Line.Cursor

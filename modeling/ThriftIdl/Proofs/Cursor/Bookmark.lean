import ThriftIdl.Proofs.Cursor

/-!
The cursor as a bookmark in the list of the lines that cleaning leaves something of. The cursor
counts raw lines and the bookmark those of the list, but after any calls both give the same lines,
and the cursor has the number of the line given last.
-/

namespace ThriftIdl.Line

/-- What cleaning leaves of a raw line, with its index. -/
def ofIndexed (entry : String × Nat) : Line :=
  ⟨entry.2, String.ofList (clean entry.1.toList)⟩

/-- The raw lines of which cleaning leaves something, each with its index and what is left. -/
def cleaned (raws : List String) : List Line := (raws.zipIdx.map ofIndexed).filter (·.text ≠ "")

theorem meaningfulFrom_eq_filter (first : Nat) (raws : List String) :
    meaningfulFrom first raws = ((raws.zipIdx first).map ofIndexed).filter (·.text ≠ "") := by
  induction raws generalizing first with
  | nil => rfl
  | cons raw raws ih =>
    rw [meaningfulFrom, ofRaw?, List.zipIdx_cons, List.map_cons, List.filter_cons, ih, ofIndexed]
    cases hclean : clean raw.toList with
    | nil => simp
    | cons c text => simp

theorem meaningful_eq_cleaned (raws : List String) : meaningful raws = cleaned raws :=
  meaningfulFrom_eq_filter 0 raws

/-- Something that gives lines one by one and can take the last one back. -/
structure Feed (σ : Type) where
  advance : σ → Option Line × σ
  rewind : σ → σ

/-- A call of a feed: for the next line, or to take the last one back. -/
inductive Call where
  | advance
  | rewind

namespace Feed

variable {σ : Type}

/-- The state after one call. -/
def step (feed : Feed σ) (state : σ) : Call → σ
  | .advance => (feed.advance state).2
  | .rewind => feed.rewind state

/-- The state after the calls. -/
def after (feed : Feed σ) (state : σ) (calls : List Call) : σ := calls.foldl feed.step state

/-- What the calls for a next line give, in order. -/
def answers (feed : Feed σ) (state : σ) : List Call → List (Option Line)
  | [] => []
  | .advance :: calls => (feed.advance state).1 :: feed.answers (feed.step state .advance) calls
  | .rewind :: calls => feed.answers (feed.step state .rewind) calls

/-- Lines from a cursor. -/
def cursor : Feed Cursor := ⟨Cursor.advance, Cursor.rewind⟩

end Feed

/-- A place in a list: how many items stand before it, and the index of the item that was taken
last, unless it was taken back. -/
structure Bookmark where
  position : Nat
  last? : Option Nat

namespace Bookmark

/-- The place before the first item, of which none was taken. -/
def start : Bookmark := ⟨0, none⟩

/-- Take the line at the place. At the end there is none, and the place stays. -/
def advance (lines : List Line) (mark : Bookmark) : Option Line × Bookmark :=
  match lines[mark.position]? with
  | some line => (some line, ⟨mark.position + 1, some mark.position⟩)
  | none => (none, mark)

/-- Go back to the line that was taken last. -/
def rewind (mark : Bookmark) : Bookmark :=
  match mark.last? with
  | some index => ⟨index, none⟩
  | none => mark

end Bookmark

/-- Lines from a list, at a bookmark. -/
def Feed.list (lines : List Line) : Feed Bookmark := ⟨Bookmark.advance lines, Bookmark.rewind⟩

/-- The lines from a given one on are those with no smaller number. -/
theorem filter_number_eq_drop {lines : List Line} {index : Nat} {line : Line}
    (hordered : lines.Pairwise (·.number < ·.number)) (hline : lines[index]? = some line) :
    lines.filter (line.number ≤ ·.number) = lines.drop index := by
  have hdrop : lines.drop index = line :: lines.drop (index + 1) :=
    List.drop_eq_getElem?_toList_append.trans (by rw [hline]; rfl)
  have hsplit := hordered
  rw [← List.take_append_drop index lines, hdrop, List.pairwise_append, List.pairwise_cons] at hsplit
  obtain ⟨-, ⟨hlater, -⟩, hearlier⟩ := hsplit
  have hbefore : (lines.take index).filter (line.number ≤ ·.number) = [] := by
    rw [List.filter_eq_nil_iff]
    intro other hother
    have hless := hearlier other hother line List.mem_cons_self
    simpa using hless
  have hfrom : (lines.drop index).filter (line.number ≤ ·.number) = lines.drop index := by
    rw [List.filter_eq_self, hdrop]
    intro other hother
    rcases List.mem_cons.1 hother with rfl | hother
    · exact decide_eq_true (Nat.le_refl _)
    · exact decide_eq_true (Nat.le_of_lt (hlater other hother))
  calc lines.filter (line.number ≤ ·.number)
      = (lines.take index ++ lines.drop index).filter (line.number ≤ ·.number) := by
        rw [List.take_append_drop]
    _ = lines.drop index := by rw [List.filter_append, hbefore, hfrom, List.nil_append]

namespace Cursor

/-- The bookmark stands where the cursor does: the same lines are to come, and the cursor has the
number of the line that the bookmark has the index of. -/
structure Marks (raws : List String) (cursor : Cursor) (mark : Bookmark) : Prop where
  lines : cursor.lines = raws
  rest : cursor.rest = (cleaned raws).drop mark.position
  taken : ∀ index, mark.last? = some index →
    ∃ line, (cleaned raws)[index]? = some line ∧ cursor.current = some line.number
  untaken : mark.last? = none → cursor.current = none

variable {raws : List String} {cursor : Cursor} {mark : Bookmark}

theorem marks_start (raws : List String) : Marks raws (start raws) Bookmark.start where
  lines := rfl
  rest := by rw [rest_start, meaningful_eq_cleaned, Bookmark.start, List.drop_zero]
  taken := by simp [Bookmark.start]
  untaken _ := rfl

/-- A call for the next line is answered alike. -/
theorem Marks.advance (h : Marks raws cursor mark) :
    cursor.advance.1 = (mark.advance (cleaned raws)).1 ∧
      Marks raws cursor.advance.2 (mark.advance (cleaned raws)).2 := by
  have hlines := (lines_advance cursor).trans h.lines
  have hrest := cursor.rest_advance
  rw [h.rest, List.tail_drop] at hrest
  cases hline : (cleaned raws)[mark.position]? with
  | some line =>
    have hcons : cursor.rest = line :: (cleaned raws).drop (mark.position + 1) := by
      rw [h.rest, List.drop_eq_getElem?_toList_append, hline]
      rfl
    rw [Bookmark.advance, hline]
    rw [advance_of_cons hcons] at hlines hrest ⊢
    refine ⟨rfl, hlines, hrest, ?_, by simp⟩
    rintro index ⟨⟩
    exact ⟨line, hline, rfl⟩
  | none =>
    have hend : (cleaned raws).drop mark.position = [] := by
      rw [List.drop_eq_nil_iff]
      exact List.getElem?_eq_none_iff.1 hline
    rw [← List.tail_drop, hend, List.tail_nil, ← hend] at hrest
    rw [Bookmark.advance, hline]
    rw [advance_of_nil (h.rest.trans hend)] at hlines hrest ⊢
    exact ⟨rfl, hlines, hrest, h.taken, h.untaken⟩

/-- Taking the last line back leads to the same place, whether or not the end was met after it. -/
theorem Marks.rewind (h : Marks raws cursor mark) : Marks raws cursor.rewind mark.rewind := by
  cases hindex : mark.last? with
  | none =>
    rw [Cursor.rewind, h.untaken hindex, Bookmark.rewind, hindex]
    exact h
  | some index =>
    obtain ⟨line, hline, hcurrent⟩ := h.taken index hindex
    have hordered := pairwise_meaningfulFrom 0 raws
    rw [Cursor.rewind, hcurrent, Bookmark.rewind, hindex]
    refine ⟨h.lines, ?_, by simp, fun _ => rfl⟩
    rw [Cursor.rest, h.lines, meaningful_eq_cleaned]
    exact filter_number_eq_drop (meaningful_eq_cleaned raws ▸ hordered) hline

theorem Marks.step (h : Marks raws cursor mark) (call : Call) :
    Marks raws (Feed.cursor.step cursor call) ((Feed.list (cleaned raws)).step mark call) := by
  cases call with
  | advance => exact h.advance.2
  | rewind => exact h.rewind

theorem Marks.after (h : Marks raws cursor mark) (calls : List Call) :
    Marks raws (Feed.cursor.after cursor calls) ((Feed.list (cleaned raws)).after mark calls) := by
  induction calls generalizing cursor mark with
  | nil => exact h
  | cons call calls ih => exact ih (h.step call)

theorem Marks.answers (h : Marks raws cursor mark) (calls : List Call) :
    Feed.cursor.answers cursor calls = (Feed.list (cleaned raws)).answers mark calls := by
  induction calls generalizing cursor mark with
  | nil => rfl
  | cons call calls ih =>
    cases call with
    | advance =>
      rw [Feed.answers, Feed.answers, ih (h.step .advance)]
      exact congrArg (· :: _) h.advance.1
    | rewind => exact ih (h.step .rewind)

end Cursor

/-- Whatever calls are made, in whatever order, a cursor answers like a bookmark in the list of the
cleaned lines. As long as the line given last was not taken back, the cursor has its number. -/
theorem Feed.answers_cursor (raws : List String) (calls : List Call) :
    Feed.cursor.answers (Cursor.start raws) calls =
        (Feed.list (cleaned raws)).answers Bookmark.start calls ∧
      ∀ index, ((Feed.list (cleaned raws)).after Bookmark.start calls).last? = some index →
        ∃ line, (cleaned raws)[index]? = some line ∧
          (Feed.cursor.after (Cursor.start raws) calls).lineNumber = line.number := by
  have hstart := Cursor.marks_start raws
  refine ⟨hstart.answers calls, ?_⟩
  intro index hindex
  obtain ⟨line, hline, hcurrent⟩ := (hstart.after calls).taken index hindex
  exact ⟨line, hline, by rw [Cursor.lineNumber, hcurrent, Option.getD_some]⟩

/-- After the end was met the cursor still has the number of the last line. -/
theorem Feed.answers_cursor_ended :
    ((Feed.list (cleaned ["a,", "# b", "", "c"])).after Bookmark.start
        [.advance, .advance, .advance]).last? = some 1 ∧
      (Feed.cursor.after (Cursor.start ["a,", "# b", "", "c"])
        [.advance, .advance, .advance]).lineNumber = 3 := by
  have hlast : ((Feed.list (cleaned ["a,", "# b", "", "c"])).after Bookmark.start
      [.advance, .advance, .advance]).last? = some 1 := by decide +kernel
  have hsecond : (cleaned ["a,", "# b", "", "c"])[1]? = some ⟨3, "c"⟩ := by decide +kernel
  obtain ⟨line, hline, hnumber⟩ := (Feed.answers_cursor _ _).2 1 hlast
  rw [hsecond] at hline
  cases hline
  exact ⟨hlast, hnumber⟩

/-- The last line can be taken back after that. -/
example : Feed.cursor.answers (Cursor.start ["a,", "# b", "", "c"])
    [.advance, .rewind, .advance, .advance, .advance, .rewind, .advance] =
      [some ⟨0, "a"⟩, some ⟨0, "a"⟩, some ⟨3, "c"⟩, none, some ⟨3, "c"⟩] := by
  decide +kernel

end ThriftIdl.Line

import ThriftIdl.Line

/-!
A cursor that hands out the meaningful lines of a document one by one and can take the last one
back.
-/

namespace ThriftIdl.Line

/-- The raw lines, the index of the next one to look at, and the index of the line delivered
last, unless it was taken back. -/
structure Cursor where
  lines : List String
  next : Nat
  current : Option Nat

namespace Cursor

def start (lines : List String) : Cursor := ⟨lines, 0, none⟩

/-- The meaningful lines not yet delivered. -/
def rest (cursor : Cursor) : List Line :=
  (meaningful cursor.lines).filter (cursor.next ≤ ·.number)

/-- The next meaningful line, and the cursor after it. At the end there is none, and the line
delivered last stays. -/
def advance (cursor : Cursor) : Option Line × Cursor :=
  match cursor.rest with
  | line :: _ => (some line, ⟨cursor.lines, line.number + 1, some line.number⟩)
  | [] => (none, ⟨cursor.lines, cursor.lines.length, cursor.current⟩)

def rewind (cursor : Cursor) : Cursor :=
  match cursor.current with
  | some number => ⟨cursor.lines, number, none⟩
  | none => cursor

/-- The index of the line delivered last, or else of the raw line before the next one. -/
def lineNumber (cursor : Cursor) : Nat :=
  cursor.current.getD (min cursor.next cursor.lines.length - 1)

/-- Beyond a later line there are those to come that stand there. -/
theorem rest_beyond {cursor : Cursor} {next : Nat} (h : cursor.next ≤ next) (current : Option Nat) :
    rest ⟨cursor.lines, next, current⟩ = cursor.rest.filter (next ≤ ·.number) := by
  rw [rest, rest, List.filter_filter]
  apply List.filter_congr
  intro line _
  by_cases hline : next ≤ line.number
  · simp [hline, Nat.le_trans h hline]
  · simp [hline]

/-- A delivery leaves fewer lines to come. -/
theorem length_rest_lt {cursor after : Cursor} {line : Line}
    (h : cursor.advance = (some line, after)) : after.rest.length < cursor.rest.length := by
  rw [advance] at h
  split at h
  · next first more hrest =>
    cases h
    have hfirst : line ∈ cursor.rest := hrest ▸ List.mem_cons_self
    have hnext : cursor.next ≤ line.number := by
      have hmem := hfirst
      rw [rest, List.mem_filter] at hmem
      exact of_decide_eq_true hmem.2
    rw [rest_beyond (Nat.le_succ_of_le hnext)]
    exact List.length_filter_lt_length_iff_exists.2 ⟨line, hfirst, by simp⟩
  · cases h

end Cursor

end ThriftIdl.Line

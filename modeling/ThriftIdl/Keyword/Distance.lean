/-!
The edit distance of two texts: the least number of single-character insertions, deletions and
replacements that turn one into the other. It is computed row by row, one row for each
character of the first text.
-/

namespace ThriftIdl.Keyword

/-- The costs after `left` in the row below `above`: entry `j` of a row is the distance from the
characters read so far to the first `j` characters of the goal. -/
def rowTail (c : Char) (left : Nat) : List Char → List Nat → List Nat
  | k :: goal, diagonal :: above :: row =>
    let cost := if c = k then diagonal else 1 + min (min diagonal above) left
    cost :: rowTail c cost goal (above :: row)
  | _, _ => []

def nextRow (goal : List Char) (row : List Nat) (c : Char) : List Nat :=
  match row with
  | [] => []
  | diagonal :: _ => (diagonal + 1) :: rowTail c (diagonal + 1) goal row

/-- The edit distance from `typed` to `goal`. -/
def distance (typed goal : List Char) : Nat :=
  (typed.foldl (nextRow goal) (List.range (goal.length + 1))).getLastD 0

end ThriftIdl.Keyword

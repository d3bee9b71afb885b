import ThriftIdl.Text.Integer

/-!
Places in documents, and how they are shown. The number of a line is one more than its index, and
for the last line of all a word has no room for it: there the program stops.
-/

namespace ThriftIdl

/-- A line of a document, counted from zero. -/
structure Location where
  document : String
  line : Nat
deriving DecidableEq

/-- The stop of the program at a place whose line has no number. -/
structure Overflow where
  place : Location
deriving DecidableEq

instance : DecidableEq (Except Overflow String)
  | .ok first, .ok second => decidable_of_iff (first = second) (by simp)
  | .error first, .error second => decidable_of_iff (first = second) (by simp)
  | .ok _, .error _ => isFalse (by simp)
  | .error _, .ok _ => isFalse (by simp)

namespace Location

/-- The number under which the line is shown. -/
def number (at_ : Location) : Except Overflow Nat :=
  if at_.line + 1 < Text.wordSize then .ok (at_.line + 1) else .error ⟨at_⟩

def text (at_ : Location) : Except Overflow String := do
  return s!"{at_.document}:{Text.ofInt (← at_.number)}"

end Location

end ThriftIdl

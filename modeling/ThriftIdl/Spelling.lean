/-!
Values that are told by their words.
-/

namespace ThriftIdl

variable {α : Type} {word : α → String} {values : List α}

/-- The value with the word, among those listed. -/
def spelled? (word : α → String) (values : List α) (text : String) : Option α :=
  values.find? (word · == text)

/-- If every value is found by its word, a value is found by no other. -/
theorem spelled?_eq_some_iff (h : ∀ value, spelled? word values (word value) = some value)
    {text : String} {value : α} : spelled? word values text = some value ↔ word value = text := by
  constructor
  · intro hvalue
    have hword := List.find?_some hvalue
    exact beq_iff_eq.1 hword
  · rintro rfl
    exact h value

end ThriftIdl

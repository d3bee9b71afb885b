import Mathlib.Data.List.DropRight
import ThriftIdl.Text.Blank

/-!
The ends of texts. What is dropped from an end are characters of a class, and what is left does not
end in the class.
-/

namespace ThriftIdl.Text

variable {p : Char → Bool} {text tail : List Char}

theorem dropEndWhile_append_of_all (h : ∀ c ∈ tail, p c = true) :
    dropEndWhile p (text ++ tail) = dropEndWhile p text := by
  rw [dropEndWhile, dropEndWhile, List.reverse_append, List.dropWhile_append_of_pos]
  simpa using h

theorem dropEndWhile_append_of_ne_nil (h : dropEndWhile p tail ≠ []) :
    dropEndWhile p (text ++ tail) = text ++ dropEndWhile p tail := by
  rw [dropEndWhile] at h
  rw [dropEndWhile, dropEndWhile, List.reverse_append, List.dropWhile_append, if_neg]
  · rw [List.reverse_append, List.reverse_reverse]
  · simpa using h

/-- A text is what is left of it and an end of dropped characters. -/
theorem exists_dropEndWhile (p : Char → Bool) (text : List Char) :
    ∃ tail, text = dropEndWhile p text ++ tail ∧ ∀ c ∈ tail, p c = true :=
  ⟨text.rtakeWhile p, List.rdropWhile_append_rtakeWhile.symm,
    fun _ hc => List.mem_rtakeWhile_imp hc⟩

/-- A text is an end of leading blanks and what is left of it. -/
theorem exists_trimStart (text : List Char) :
    ∃ blanks, text = blanks ++ trimStart text ∧ ∀ c ∈ blanks, isBlank c = true :=
  ⟨text.takeWhile isBlank, List.takeWhile_append_dropWhile.symm,
    fun _ hc => List.mem_takeWhile_imp hc⟩

/-- A text that starts where blanks end does not start with a blank. -/
theorem isBlank_of_prefix_trimStart {raw : List Char} (h : text <+: trimStart raw) :
    ∀ c ∈ text.head?, isBlank c = false := by
  intro c hc
  obtain ⟨rest, hrest⟩ := h
  have hfirst := List.head?_dropWhile_not isBlank raw
  rw [← trimStart, ← hrest, List.head?_append, hc] at hfirst
  exact hfirst

/-- What is left after dropping from the end does not end in the class. -/
theorem of_getLast?_dropEndWhile : ∀ c ∈ (dropEndWhile p text).getLast?, p c = false := by
  intro c hc
  have hget : (text.rdropWhile p).getLast? = some c := hc
  have hne : text.rdropWhile p ≠ [] := by
    rintro hnil
    rw [hnil] at hget
    cases hget
  rw [List.getLast?_eq_some_getLast hne, Option.some.injEq] at hget
  have hlast := List.rdropWhile_last_not p text hne
  rw [hget] at hlast
  simpa using hlast

/-- Nothing is dropped exactly from a text that does not end in the class. -/
theorem dropEndWhile_eq_self_iff :
    dropEndWhile p text = text ↔ ∀ c ∈ text.getLast?, p c = false := by
  constructor
  · intro h
    rw [← h]
    exact of_getLast?_dropEndWhile
  · intro h
    obtain ⟨tail, htext, htail⟩ := exists_dropEndWhile p text
    cases hend : tail.getLast? with
    | none =>
      rw [List.getLast?_eq_none_iff.1 hend, List.append_nil] at htext
      exact htext.symm
    | some c =>
      have hlast := h c (by rw [htext, List.getLast?_append, hend]; rfl)
      rw [htail c (List.mem_of_mem_getLast? hend)] at hlast
      cases hlast

theorem dropEndWhile_eq_self (h : ∀ c ∈ text, p c = false) : dropEndWhile p text = text :=
  dropEndWhile_eq_self_iff.2 fun c hc => h c (List.mem_of_mem_getLast? hc)

/-- Nothing is trimmed from a text with no blank at its ends. -/
theorem trim_eq_self (hhead : ∀ c ∈ text.head?, isBlank c = false)
    (hlast : ∀ c ∈ text.getLast?, isBlank c = false) : trim text = text := by
  have hstart : trimStart text = text := by
    cases text with
    | nil => rfl
    | cons c rest => rw [trimStart, List.dropWhile_cons_of_neg (by simp [hhead c rfl])]
  rw [trim, hstart]
  exact dropEndWhile_eq_self_iff.2 hlast

theorem trim_blanks {blanks : List Char} (h : ∀ c ∈ blanks, isBlank c = true) :
    trim blanks = [] := by
  have hstart : trimStart blanks = [] := List.dropWhile_eq_nil_iff.2 h
  rw [trim, hstart]
  rfl

/-- A text that starts where blanks end holds more than blanks. -/
theorem trimEnd_ne_nil {raw : List Char} (h : text <+: trimStart raw) (hne : text ≠ []) :
    trimEnd text ≠ [] := by
  intro htrim
  obtain ⟨tail, htext, htail⟩ := exists_dropEndWhile isBlank text
  obtain ⟨c, rest, rfl⟩ := List.exists_cons_of_ne_nil hne
  rw [trimEnd] at htrim
  rw [htrim, List.nil_append] at htext
  have hc := htail c (by rw [← htext]; exact List.mem_cons_self)
  rw [isBlank_of_prefix_trimStart h c rfl] at hc
  cases hc

end ThriftIdl.Text

import Mathlib.Computability.Language
import ThriftIdl.Identifier

/-!
The language of identifiers. An identifier is a letter or `_`, followed by letters, digits, `_`, `-`
and `.`.
-/

namespace ThriftIdl.Identifier

open scoped Computability

/-- The words of one character that has the property. -/
def oneOf (P : Char → Prop) : Language Char := {word | ∃ c, P c ∧ word = [c]}

def Letter (c : Char) : Prop := 'A' ≤ c ∧ c ≤ 'Z' ∨ 'a' ≤ c ∧ c ≤ 'z'

def Digit (c : Char) : Prop := '0' ≤ c ∧ c ≤ '9'

/-- The words that `[A-Za-z_][A-Za-z0-9_\-.]*` matches as a whole. -/
def language : Language Char :=
  oneOf (fun c => Letter c ∨ c = '_') *
    (oneOf fun c => Letter c ∨ Digit c ∨ c = '_' ∨ c = '-' ∨ c = '.')∗

theorem mem_kstar_oneOf {P : Char → Prop} {word : List Char} :
    word ∈ (oneOf P)∗ ↔ ∀ c ∈ word, P c := by
  rw [Language.mem_kstar]
  constructor
  · rintro ⟨words, rfl, hwords⟩ c hc
    obtain ⟨word, hword, hc⟩ := List.mem_flatten.1 hc
    obtain ⟨d, hd, rfl⟩ := hwords word hword
    rw [List.mem_singleton.1 hc]
    exact hd
  · intro h
    refine ⟨word.map fun c => [c], ?_, fun other hother => ?_⟩
    · rw [← List.flatMap_def, List.flatMap_singleton']
    · obtain ⟨c, hc, rfl⟩ := List.mem_map.1 hother
      exact ⟨c, h c hc, rfl⟩

theorem isAlpha_iff {c : Char} : c.isAlpha = true ↔ Letter c := by
  change (decide ('A'.val ≤ c.val ∧ c.val ≤ 'Z'.val) ||
    (decide ('a'.val ≤ c.val) && decide (c.val ≤ 'z'.val))) = true ↔ Letter c
  simp [Letter, Char.le_def]

theorem isStart_iff {c : Char} : isStart c = true ↔ Letter c ∨ c = '_' := by
  simp [isStart, isAlpha_iff]

theorem isContinue_iff {c : Char} :
    isContinue c = true ↔ Letter c ∨ Digit c ∨ c = '_' ∨ c = '-' ∨ c = '.' := by
  simp [isContinue, Char.isAlphanum, isAlpha_iff, Char.isDigit, Digit, Char.le_def, or_assoc]

/-- The identifiers are the words of the language. -/
theorem isValid_iff {name : String} : isValid name = true ↔ name.toList ∈ language := by
  rw [isValid, language, Language.mem_mul]
  simp only [mem_kstar_oneOf, ← isContinue_iff, ← isStart_iff]
  constructor
  · intro h
    cases hname : name.toList with
    | nil =>
      rw [hname] at h
      cases h
    | cons c rest =>
      rw [hname, spelledBy, Bool.and_eq_true, List.all_eq_true] at h
      exact ⟨[c], ⟨c, h.1, rfl⟩, rest, h.2, rfl⟩
  · rintro ⟨_, ⟨c, hc, rfl⟩, rest, hrest, hname⟩
    rw [← hname, List.singleton_append, spelledBy, Bool.and_eq_true, List.all_eq_true]
    exact ⟨hc, hrest⟩

end ThriftIdl.Identifier

import ThriftIdl.Proofs.Identifier
import ThriftIdl.Proofs.Steps
import ThriftIdl.Proofs.Text.Integer

/-!
What a literal denotes: an optional sign and decimal digits, or hexadecimal ones after `0x` or `0X`.
Its magnitude is read in 64 bits, which the sign leaves exact.
-/

namespace ThriftIdl.Text

open Identifier (oneOf mem_kstar_oneOf Digit)
open scoped Computability

/-- The characters denote the number without a sign. -/
inductive Magnitude : List Char → Nat → Prop
  | decimal {digits number} (h : Numeral 10 digits number) : Magnitude digits number
  | hexadecimal {digits number x} (hx : x = 'x' ∨ x = 'X') (h : Numeral 16 digits number) :
      Magnitude ('0' :: x :: digits) number

/-- The characters denote the integer. -/
inductive Denotes : List Char → Int → Prop
  | bare {digits number} (h : Magnitude digits number) : Denotes digits number
  | plus {digits number} (h : Magnitude digits number) : Denotes ('+' :: digits) number
  | minus {digits number} (h : Magnitude digits number) : Denotes ('-' :: digits) (-number)

variable {base value number : Nat} {digits : List Char} {c : Char}

/-- The mark of a hexadecimal literal is no decimal digit. -/
theorem not_numeral_hexadecimal {x : Char} (hx : x = 'x' ∨ x = 'X') :
    ¬Numeral 10 ('0' :: x :: digits) number := by
  rintro ⟨-, values, hvalues, -⟩
  have hnone : digit? 10 x = none := by rcases hx with rfl | rfl <;> decide
  cases hvalues with
  | cons _ hvalues =>
    cases hvalues with
    | cons hvalue _ => exact not_digitOf_of_none (by decide) hnone hvalue

/-- The magnitude is the number that the characters denote, if it fits 64 bits. -/
theorem magnitude?_of_magnitude (h : Magnitude digits number) :
    magnitude? digits = int64? number := by
  cases h with
  | hexadecimal hx h =>
    rcases hx with rfl | rfl
    · exact word?_of_numeral (by decide) h
    · exact word?_of_numeral (by decide) h
  | decimal h =>
    rw [magnitude?.eq_def]
    split
    · exact absurd h (not_numeral_hexadecimal (.inl rfl))
    · exact absurd h (not_numeral_hexadecimal (.inr rfl))
    · exact word?_of_numeral (by decide) h

theorem magnitude?_eq_some_iff {word : Int64} :
    magnitude? digits = some word ↔ ∃ number, Magnitude digits number ∧ number = word.toInt := by
  constructor
  · intro h
    have hword : ∀ {base digits}, 0 < base → base ≤ 16 → word? base digits = some word →
        ∃ number, Numeral base digits number ∧ number = word.toInt := by
      intro base digits hpositive hbase h
      rw [word?_eq hpositive, Option.bind_eq_some_iff] at h
      obtain ⟨number, hnumber, hfits⟩ := h
      exact ⟨number, (natural?_eq_some_iff hbase).1 hnumber, int64?_eq_some_iff.1 hfits⟩
    rw [magnitude?.eq_def] at h
    split at h
    · obtain ⟨number, hnumber, hfits⟩ := hword (by decide) (by decide) h
      exact ⟨number, .hexadecimal (.inl rfl) hnumber, hfits⟩
    · obtain ⟨number, hnumber, hfits⟩ := hword (by decide) (by decide) h
      exact ⟨number, .hexadecimal (.inr rfl) hnumber, hfits⟩
    · obtain ⟨number, hnumber, hfits⟩ := hword (by decide) (by decide) h
      exact ⟨number, .decimal hnumber, hfits⟩
  · rintro ⟨number, hnumber, hfits⟩
    rw [magnitude?_of_magnitude hnumber, int64?_eq_some_iff, hfits]

/-- A magnitude has no sign. -/
theorem sign_of_magnitude (h : Magnitude digits number) : sign digits = (false, digits) := by
  have hsign : ∀ base ≤ 16, ∀ c value, DigitOf base c value → c ≠ '-' ∧ c ≠ '+' := by
    intro base hbase c value hvalue
    constructor
    · rintro rfl
      exact not_digitOf_of_none hbase rfl hvalue
    · rintro rfl
      exact not_digitOf_of_none hbase rfl hvalue
  cases h with
  | hexadecimal hx h => rfl
  | decimal h =>
    obtain ⟨c, rest, value, rfl, hvalue⟩ := h.exists_digit
    obtain ⟨hminus, hplus⟩ := hsign 10 (by decide) c value hvalue
    simp [sign, hminus, hplus]

theorem denotes_iff {text : List Char} {integer : Int} :
    Denotes text integer ↔
      ∃ number, Magnitude (sign text).2 number ∧ signed (sign text).1 number = integer := by
  constructor
  · intro h
    cases h with
    | @bare _ number h =>
      rw [sign_of_magnitude h]
      exact ⟨number, h, rfl⟩
    | @plus digits number h => exact ⟨number, h, rfl⟩
    | @minus digits number h => exact ⟨number, h, rfl⟩
  · rintro ⟨number, h, rfl⟩
    rw [sign.eq_def] at h ⊢
    split at h
    · exact .minus h
    · exact .plus h
    · exact .bare h

/-- The sign of a magnitude leaves a word of 64 bits exact. -/
theorem signedWord_of_magnitude {word : Int64} (h : (number : Int) = word.toInt) (negative : Bool) :
    (signedWord negative word).toInt = signed negative number := by
  have hhigh := word.toInt_lt
  cases negative with
  | false => exact h.symm
  | true =>
    change (-word).toInt = -(number : Int)
    rw [Int64.toInt_neg, ← h, Int.bmod_eq_of_le (by omega) (by omega)]

/-- The literals with a value are those that denote an integer of 32 bits. -/
theorem literal32?_eq_some_iff {text : String} {value : Int32} :
    literal32? text = some value ↔ Denotes text.toList value.toInt := by
  rw [literal32?, Option.bind_eq_some_iff, denotes_iff]
  simp only [magnitude?_eq_some_iff, int32?_eq_some_iff]
  constructor
  · rintro ⟨word, ⟨number, hnumber, hword⟩, hvalue⟩
    exact ⟨number, hnumber, by rw [← hvalue, signedWord_of_magnitude hword]⟩
  · rintro ⟨number, hnumber, hvalue⟩
    have hlow := value.le_toInt
    have hhigh := value.toInt_lt
    obtain ⟨word, hword⟩ := (@exists_int64?_iff number).2 (by
      rw [signed] at hvalue
      split at hvalue <;> omega)
    rw [int64?_eq_some_iff] at hword
    exact ⟨word, ⟨number, hnumber, hword⟩, by rw [signedWord_of_magnitude hword, hvalue]⟩

theorem Numeral.unique {other : Nat} (hbase : base ≤ 16) (h : Numeral base digits number)
    (hother : Numeral base digits other) : number = other := by
  rw [← natural?_eq_some_iff hbase] at h hother
  exact Option.some.inj (h.symm.trans hother)

theorem Magnitude.unique {other : Nat} (h : Magnitude digits number)
    (hother : Magnitude digits other) : number = other := by
  cases h with
  | decimal h =>
    cases hother with
    | decimal hother => exact h.unique (by decide) hother
    | hexadecimal hx => exact absurd h (not_numeral_hexadecimal hx)
  | hexadecimal hx h =>
    cases hother with
    | decimal hother => exact absurd hother (not_numeral_hexadecimal hx)
    | hexadecimal _ hother => exact h.unique (by decide) hother

theorem Denotes.unique {text : List Char} {integer other : Int} (h : Denotes text integer)
    (hother : Denotes text other) : integer = other := by
  obtain ⟨number, hnumber, rfl⟩ := denotes_iff.1 h
  obtain ⟨same, hsame, rfl⟩ := denotes_iff.1 hother
  rw [hnumber.unique hsame]

/-- The hexadecimal digits. -/
def HexDigit (c : Char) : Prop := Digit c ∨ 'A' ≤ c ∧ c ≤ 'F' ∨ 'a' ≤ c ∧ c ≤ 'f'

/-- The words of one or more characters with the property. -/
def oneOrMore (P : Char → Prop) : Language Char := oneOf P * (oneOf P)∗

/-- The words that `0[xX][0-9A-Fa-f]+|[0-9]+` matches as a whole. -/
def magnitudes : Language Char :=
  oneOf (· = '0') * oneOf (fun c => c = 'x' ∨ c = 'X') * oneOrMore HexDigit + oneOrMore Digit

/-- The words that `[+-]?(0[xX][0-9A-Fa-f]+|[0-9]+)` matches as a whole. -/
def literals : Language Char := (1 + oneOf fun c => c = '+' ∨ c = '-') * magnitudes

theorem mem_oneOrMore {P : Char → Prop} :
    digits ∈ oneOrMore P ↔ digits ≠ [] ∧ ∀ c ∈ digits, P c := by
  rw [oneOrMore, Language.mem_mul]
  simp only [mem_kstar_oneOf]
  constructor
  · rintro ⟨_, ⟨c, hc, rfl⟩, rest, hrest, rfl⟩
    exact ⟨List.cons_ne_nil c rest, List.forall_mem_cons.2 ⟨hc, hrest⟩⟩
  · rintro ⟨hne, h⟩
    obtain ⟨c, rest, rfl⟩ := List.exists_cons_of_ne_nil hne
    rw [List.forall_mem_cons] at h
    exact ⟨[c], ⟨c, h.1, rfl⟩, rest, h.2, rfl⟩

theorem exists_digitOf_sixteen_iff : (∃ value, DigitOf 16 c value) ↔ HexDigit c := by
  simp only [← digit?_sixteen_eq_some_iff, digit?_sixteen_iff_range]
  constructor
  · rintro ⟨value, ⟨hc, -⟩ | ⟨hc, -⟩ | ⟨hc, -⟩⟩
    · exact .inl hc
    · exact .inr (.inr hc)
    · exact .inr (.inl hc)
  · rintro (hc | hc | hc)
    · have hlow : 48 ≤ c.toNat := hc.1
      exact ⟨c.toNat - 48, .inl ⟨hc, by omega⟩⟩
    · have hlow : 65 ≤ c.toNat := hc.1
      exact ⟨c.toNat - 55, .inr (.inr ⟨hc, by omega⟩)⟩
    · have hlow : 97 ≤ c.toNat := hc.1
      exact ⟨c.toNat - 87, .inr (.inl ⟨hc, by omega⟩)⟩

theorem exists_digitOf_ten_iff : (∃ value, DigitOf 10 c value) ↔ Digit c := by
  simp only [← digit?_eq_some_iff (show 10 ≤ 16 by decide),
    digit?_eq_some_iff_sixteen (show 10 ≤ 16 by decide), digit?_sixteen_iff_range]
  constructor
  · rintro ⟨value, ⟨hc, -⟩ | ⟨hc, hletter⟩ | ⟨hc, hletter⟩, hvalue⟩
    · exact hc
    · have hlow : 97 ≤ c.toNat := hc.1
      omega
    · have hlow : 65 ≤ c.toNat := hc.1
      omega
  · intro hc
    have hlow : 48 ≤ c.toNat := hc.1
    have hhigh : c.toNat ≤ 57 := hc.2
    exact ⟨c.toNat - 48, .inl ⟨hc, by omega⟩, by omega⟩

/-- The numerals of a base are its digits in a row. -/
theorem exists_numeral_iff {P : Char → Prop} (hP : ∀ c, (∃ value, DigitOf base c value) ↔ P c) :
    (∃ number, Numeral base digits number) ↔ digits ∈ oneOrMore P := by
  simp only [mem_oneOrMore, ← hP, ← Steps.exists_forall₂_iff]
  constructor
  · rintro ⟨number, hne, values, hvalues, -⟩
    exact ⟨hne, values, hvalues⟩
  · rintro ⟨hne, values, hvalues⟩
    exact ⟨_, hne, values, hvalues, rfl⟩

/-- The words of the language are the texts that denote a number without a sign. -/
theorem mem_magnitudes_iff : digits ∈ magnitudes ↔ ∃ number, Magnitude digits number := by
  rw [magnitudes, Language.mem_add, ← exists_numeral_iff fun _ => exists_digitOf_ten_iff, Language.mem_mul]
  constructor
  · rintro (⟨_, ⟨_, ⟨_, rfl, rfl⟩, _, ⟨x, hx, rfl⟩, rfl⟩, digits, hdigits, rfl⟩ | ⟨number, h⟩)
    · obtain ⟨number, h⟩ := (exists_numeral_iff fun _ => exists_digitOf_sixteen_iff).2 hdigits
      exact ⟨number, .hexadecimal hx h⟩
    · exact ⟨number, .decimal h⟩
  · rintro ⟨number, h⟩
    cases h with
    | decimal h => exact .inr ⟨number, h⟩
    | @hexadecimal digits number x hx h =>
      exact .inl ⟨['0', x], ⟨['0'], ⟨'0', rfl, rfl⟩, [x], ⟨x, hx, rfl⟩, rfl⟩, digits,
        (exists_numeral_iff fun _ => exists_digitOf_sixteen_iff).1 ⟨number, h⟩, rfl⟩

/-- The words of the language are the texts that denote an integer. -/
theorem mem_literals_iff {text : List Char} :
    text ∈ literals ↔ ∃ integer, Denotes text integer := by
  rw [literals, Language.mem_mul]
  simp only [Language.mem_add, Language.mem_one, mem_magnitudes_iff]
  constructor
  · rintro ⟨_, rfl | ⟨c, rfl | rfl, rfl⟩, digits, ⟨number, h⟩, rfl⟩
    · exact ⟨number, .bare h⟩
    · exact ⟨number, .plus h⟩
    · exact ⟨-number, .minus h⟩
  · rintro ⟨integer, h⟩
    cases h with
    | @bare _ number h => exact ⟨[], .inl rfl, text, ⟨number, h⟩, rfl⟩
    | @plus digits number h => exact ⟨['+'], .inr ⟨'+', .inl rfl, rfl⟩, digits, ⟨number, h⟩, rfl⟩
    | @minus digits number h =>
      exact ⟨['-'], .inr ⟨'-', .inr rfl, rfl⟩, digits, ⟨number, h⟩, rfl⟩

/-- A text has a value exactly if it is a word of the language and the one integer that it denotes
fits 32 bits, and then this is the value. On the way the magnitude is read in 64 bits: it is the
number that the digits denote, or there is none if this does not fit, and the sign leaves it exact. -/
theorem literal_value_iff (text : String) :
    (∀ value, literal32? text = some value ↔
      text.toList ∈ literals ∧ ∃ integer, Denotes text.toList integer ∧
        -2147483648 ≤ integer ∧ integer ≤ 2147483647 ∧ value.toInt = integer) ∧
    ((∃ value, literal32? text = some value) ↔
      text.toList ∈ literals ∧ ∃ integer, Denotes text.toList integer ∧
        -2147483648 ≤ integer ∧ integer ≤ 2147483647) ∧
    (text.toList ∈ literals ↔ ∃! integer, Denotes text.toList integer) ∧
    ∀ number, Magnitude (sign text.toList).2 number →
      magnitude? (sign text.toList).2 = int64? number ∧
      ∀ word, magnitude? (sign text.toList).2 = some word →
        (signedWord (sign text.toList).1 word).toInt = signed (sign text.toList).1 number := by
  have hvalue : ∀ value, literal32? text = some value ↔
      text.toList ∈ literals ∧ ∃ integer, Denotes text.toList integer ∧
        -2147483648 ≤ integer ∧ integer ≤ 2147483647 ∧ value.toInt = integer := by
    intro value
    have hlow := value.le_toInt
    have hhigh := value.toInt_lt
    rw [literal32?_eq_some_iff]
    constructor
    · intro h
      exact ⟨mem_literals_iff.2 ⟨_, h⟩, value.toInt, h, by omega, by omega, rfl⟩
    · rintro ⟨-, integer, h, -, -, rfl⟩
      exact h
  refine ⟨hvalue, ?_, ?_, fun number hnumber => ?_⟩
  · constructor
    · rintro ⟨value, h⟩
      obtain ⟨hmem, integer, hdenotes, hlow, hhigh, -⟩ := (hvalue value).1 h
      exact ⟨hmem, integer, hdenotes, hlow, hhigh⟩
    · rintro ⟨hmem, integer, hdenotes, hlow, hhigh⟩
      have hexact : (Int32.ofInt integer).toInt = integer :=
        Int32.toInt_ofInt_of_le (by omega) (by omega)
      exact ⟨_, (hvalue _).2 ⟨hmem, integer, hdenotes, hlow, hhigh, hexact⟩⟩
  · rw [mem_literals_iff]
    constructor
    · rintro ⟨integer, h⟩
      exact ⟨integer, h, fun other hother => hother.unique h⟩
    · rintro ⟨integer, h, -⟩
      exact ⟨integer, h⟩
  · have hmagnitude := magnitude?_of_magnitude hnumber
    refine ⟨hmagnitude, fun word hword => ?_⟩
    rw [hmagnitude] at hword
    exact signedWord_of_magnitude (int64?_eq_some_iff.1 hword) _

/-- The least integer of 32 bits is read, with zeros before its digits, and a magnitude that exceeds 64
bits by one is not. -/
theorem literal_value_iff_least :
    Magnitude "0x000000000000000080000000".toList 2147483648 ∧
      literal32? "-0x000000000000000080000000" = some (-2147483648) ∧
      Magnitude "9223372036854775808".toList 9223372036854775808 ∧
      magnitude? "9223372036854775808".toList = none := by
  have hleast : Magnitude "0x000000000000000080000000".toList 2147483648 :=
    .hexadecimal (.inl rfl) ((natural?_eq_some_iff (by decide)).1 (by decide +kernel))
  have hlarge : Magnitude "9223372036854775808".toList 9223372036854775808 :=
    .decimal ((natural?_eq_some_iff (by decide)).1 (by decide +kernel))
  have hdenotes : Denotes "-0x000000000000000080000000".toList (-2147483648) := .minus hleast
  obtain ⟨hvalue, -, -, -⟩ := literal_value_iff "-0x000000000000000080000000"
  obtain ⟨-, -, -, hwords⟩ := literal_value_iff "9223372036854775808"
  refine ⟨hleast, ?_, hlarge, ?_⟩
  · exact (hvalue _).2
      ⟨mem_literals_iff.2 ⟨_, hdenotes⟩, _, hdenotes, by decide, by decide, by decide⟩
  · exact (hwords _ hlarge).1

end ThriftIdl.Text

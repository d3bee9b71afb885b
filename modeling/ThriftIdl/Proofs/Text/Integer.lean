import Mathlib.Data.Nat.Digits.Defs
import Mathlib.Tactic.Ring
import ThriftIdl.Text.Integer

/-!
Numbers as digits. Each digit has the value that it has in its base, the least one stands last, and
an integer fits a word if the word has it as its value. Digits read in words of 64 bits give the
number that they make up if it fits and nothing else.
-/

namespace ThriftIdl.Text

/-- The character is the digit of the value in the base, small or capital. -/
def DigitOf (base : Nat) (c : Char) (value : Nat) : Prop :=
  value < base ∧ (c = Nat.digitChar value ∨ c = (Nat.digitChar value).toUpper)

/-- The characters are one or more digits, the least of them last, and make up the number. -/
def Numeral (base : Nat) (digits : List Char) (number : Nat) : Prop :=
  digits ≠ [] ∧ ∃ values, List.Forall₂ (DigitOf base) digits values ∧
    number = Nat.ofDigits base values.reverse

variable {base value number : Nat} {digits : List Char} {c : Char}

/-- The digits below the base are told apart by their ranges. -/
theorem digit?_sixteen_iff_range :
    digit? 16 c = some value ↔
      ('0' ≤ c ∧ c ≤ '9') ∧ value + 48 = c.toNat ∨ ('a' ≤ c ∧ c ≤ 'f') ∧ value + 87 = c.toNat ∨
        ('A' ≤ c ∧ c ≤ 'F') ∧ value + 55 = c.toNat := by
  have hrange : ∀ low high : Char, low ≤ c ∧ c ≤ high ↔ low.toNat ≤ c.toNat ∧ c.toNat ≤ high.toNat :=
    fun _ _ => Iff.rfl
  have hdigit := hrange '0' '9'
  have hsmall := hrange 'a' 'f'
  have hcapital := hrange 'A' 'F'
  rw [digit?, Option.filter_eq_some_iff]
  simp only [hdigit, hsmall, hcapital, Char.reduceToNat, decide_eq_true_eq]
  split
  · rw [Option.some.injEq]
    omega
  · split
    · rw [Option.some.injEq]
      omega
    · split
      · rw [Option.some.injEq]
        omega
      · simp only [reduceCtorEq, false_and, false_iff]
        omega

/-- The digits of a base are those of base 16 with a value below the base. -/
theorem digit?_eq_some_iff_sixteen (hbase : base ≤ 16) :
    digit? base c = some value ↔ digit? 16 c = some value ∧ value < base := by
  simp only [digit?, Option.filter_eq_some_iff, decide_eq_true_eq]
  constructor
  · rintro ⟨hdigit, hvalue⟩
    exact ⟨⟨hdigit, Nat.lt_of_lt_of_le hvalue hbase⟩, hvalue⟩
  · rintro ⟨⟨hdigit, -⟩, hvalue⟩
    exact ⟨hdigit, hvalue⟩

/-- No digit comes after `f`. -/
theorem toNat_lt_of_digit? (h : digit? 16 c = some value) : c.toNat < 103 := by
  rcases digit?_sixteen_iff_range.1 h with ⟨hc, -⟩ | ⟨hc, -⟩ | ⟨hc, -⟩
  · have hhigh : c.toNat ≤ 57 := hc.2
    omega
  · have hhigh : c.toNat ≤ 102 := hc.2
    omega
  · have hhigh : c.toNat ≤ 70 := hc.2
    omega

theorem digit?_sixteen_eq_some_iff : digit? 16 c = some value ↔ DigitOf 16 c value := by
  constructor
  · intro h
    have hall : ∀ number < 103, ∀ value ∈ (digit? 16 (Char.ofNat number)).toList,
        DigitOf 16 (Char.ofNat number) value := by
      unfold DigitOf
      decide
    have hc := hall c.toNat (toNat_lt_of_digit? h) value
    rw [Char.ofNat_toNat, h] at hc
    exact hc (List.mem_singleton_self value)
  · rintro ⟨hvalue, hc⟩
    have hall : ∀ value < 16, digit? 16 (Nat.digitChar value) = some value ∧
        digit? 16 (Nat.digitChar value).toUpper = some value := by decide
    rcases hc with rfl | rfl
    · exact (hall value hvalue).1
    · exact (hall value hvalue).2

theorem digit?_eq_some_iff (hbase : base ≤ 16) :
    digit? base c = some value ↔ DigitOf base c value := by
  rw [digit?_eq_some_iff_sixteen hbase, digit?_sixteen_eq_some_iff, DigitOf, DigitOf]
  constructor
  · rintro ⟨⟨-, hc⟩, hvalue⟩
    exact ⟨hvalue, hc⟩
  · rintro ⟨hvalue, hc⟩
    exact ⟨⟨Nat.lt_of_lt_of_le hvalue hbase, hc⟩, hvalue⟩

/-- Digits continue the number that those before them make up. -/
theorem naturalFrom?_eq_some_iff (hbase : base ≤ 16) {before : Nat} :
    naturalFrom? base before digits = some number ↔
      ∃ values, List.Forall₂ (DigitOf base) digits values ∧
        number = Nat.ofDigits base values.reverse + base ^ values.length * before := by
  induction digits generalizing before with
  | nil =>
    rw [naturalFrom?, Option.some.injEq, eq_comm]
    constructor
    · rintro rfl
      exact ⟨[], .nil, by simp⟩
    · rintro ⟨_, hvalues, rfl⟩
      cases hvalues
      simp
  | cons c digits ih =>
    rw [naturalFrom?, Option.bind_eq_some_iff]
    constructor
    · rintro ⟨value, hvalue, hnumber⟩
      obtain ⟨values, hvalues, rfl⟩ := ih.1 hnumber
      refine ⟨value :: values, .cons ((digit?_eq_some_iff hbase).1 hvalue) hvalues, ?_⟩
      rw [List.reverse_cons, Nat.ofDigits_append, Nat.ofDigits_singleton, List.length_reverse,
        List.length_cons]
      ring
    · rintro ⟨_, hvalues, rfl⟩
      cases hvalues with
      | @cons _ value _ values hvalue hvalues =>
        refine ⟨value, (digit?_eq_some_iff hbase).2 hvalue, ih.2 ⟨values, hvalues, ?_⟩⟩
        rw [List.reverse_cons, Nat.ofDigits_append, Nat.ofDigits_singleton, List.length_reverse,
          List.length_cons]
        ring

theorem natural?_eq_some_iff (hbase : base ≤ 16) :
    natural? base digits = some number ↔ Numeral base digits number := by
  cases digits with
  | nil => simp [natural?, Numeral]
  | cons c digits => simp [natural?, Numeral, naturalFrom?_eq_some_iff hbase]

/-- A numeral starts with a digit. -/
theorem Numeral.exists_digit (h : Numeral base digits number) :
    ∃ c rest value, digits = c :: rest ∧ DigitOf base c value := by
  obtain ⟨hne, values, hvalues, -⟩ := h
  cases hvalues with
  | nil => exact absurd rfl hne
  | @cons c value rest values hvalue hvalues => exact ⟨c, rest, value, rfl, hvalue⟩

theorem not_digitOf_of_none (hbase : base ≤ 16) (hnone : digit? base c = none) :
    ¬DigitOf base c value := by
  simp [← digit?_eq_some_iff hbase, hnone]

theorem int16?_eq_some_iff {integer : Int} {word : Int16} :
    int16? integer = some word ↔ integer = word.toInt := by
  have hlow := word.le_toInt
  have hhigh := word.toInt_lt
  rw [int16?]
  split
  · next hfits =>
    rw [Option.some.injEq, ← Int16.toInt_inj, Int16.toInt_ofInt_of_le (by omega) (by omega)]
  · next hfits =>
    simp only [reduceCtorEq, false_iff]
    omega

theorem int32?_eq_some_iff {integer : Int} {word : Int32} :
    int32? integer = some word ↔ integer = word.toInt := by
  have hlow := word.le_toInt
  have hhigh := word.toInt_lt
  rw [int32?]
  split
  · next hfits =>
    rw [Option.some.injEq, ← Int32.toInt_inj, Int32.toInt_ofInt_of_le (by omega) (by omega)]
  · next hfits =>
    simp only [reduceCtorEq, false_iff]
    omega

theorem int64?_eq_some_iff {integer : Int} {word : Int64} :
    int64? integer = some word ↔ integer = word.toInt := by
  have hlow := word.le_toInt
  have hhigh := word.toInt_lt
  rw [int64?]
  split
  · next hfits =>
    rw [Option.some.injEq, ← Int64.toInt_inj, Int64.toInt_ofInt_of_le (by omega) (by omega)]
  · next hfits =>
    simp only [reduceCtorEq, false_iff]
    omega

theorem exists_int64?_iff {integer : Int} :
    (∃ word, int64? integer = some word) ↔
      -9223372036854775808 ≤ integer ∧ integer ≤ 9223372036854775807 := by
  rw [int64?]
  split
  · next hfits => exact iff_of_true ⟨_, rfl⟩ hfits
  · next hfits => exact iff_of_false (by simp) hfits

theorem int64?_eq_none_iff {integer : Int} :
    int64? integer = none ↔
      ¬(-9223372036854775808 ≤ integer ∧ integer ≤ 9223372036854775807) := by
  rw [← exists_int64?_iff, ← Option.isSome_iff_exists, Option.not_isSome_iff_eq_none]

/-- More digits make no number smaller. -/
theorem le_of_naturalFrom? (hbase : 0 < base) {before : Nat}
    (h : naturalFrom? base before digits = some number) : before ≤ number := by
  induction digits generalizing before with
  | nil =>
    rw [naturalFrom?, Option.some.injEq] at h
    exact h.le
  | cons c digits ih =>
    rw [naturalFrom?, Option.bind_eq_some_iff] at h
    obtain ⟨value, -, h⟩ := h
    have hmul : before ≤ before * base := Nat.le_mul_of_pos_right before hbase
    have hrest := ih h
    omega

/-- Read in words, digits continue a number exactly, unless it comes to exceed 64 bits. -/
theorem wordFrom?_eq (hbase : 0 < base) {word : Int64} {before : Nat} (hword : word.toInt = before) :
    wordFrom? base word digits =
      (naturalFrom? base before digits).bind fun number => int64? number := by
  induction digits generalizing word before with
  | nil =>
    rw [wordFrom?, naturalFrom?, Option.bind_some, eq_comm, int64?_eq_some_iff, hword]
  | cons c digits ih =>
    rw [wordFrom?, naturalFrom?]
    cases hdigit : digit? base c with
    | none => rfl
    | some value =>
      rw [Option.bind_some, Option.bind_some]
      have hproduct : word.toInt * base = (before * base : Nat) := by
        rw [hword, Nat.cast_mul]
      cases hsum : int64? (before * base + value : Nat) with
      | some sum =>
        rw [int64?_eq_some_iff] at hsum
        obtain ⟨product, hfits⟩ := (@exists_int64?_iff (before * base : Nat)).2 (by
          have hhigh := sum.toInt_lt
          omega)
        rw [hproduct, hfits, Option.bind_some]
        rw [int64?_eq_some_iff] at hfits
        rw [← hfits, ← Nat.cast_add, int64?_eq_some_iff.2 hsum, Option.bind_some]
        exact ih hsum.symm
      | none =>
        -- The sum is too large, and so is the number, which more digits only make larger.
        rw [int64?_eq_none_iff] at hsum
        have hleft : ∀ product, int64? (word.toInt * base) = some product →
            int64? (product.toInt + value) = none := by
          intro product h
          rw [int64?_eq_some_iff, hproduct] at h
          rw [int64?_eq_none_iff, ← h]
          omega
        have hright : ∀ number, naturalFrom? base (before * base + value) digits = some number →
            int64? number = none := by
          intro number h
          have hle := le_of_naturalFrom? hbase h
          rw [int64?_eq_none_iff]
          omega
        rw [Option.bind_eq_none_iff.2 fun product h => by rw [hleft product h, Option.bind_none],
          Option.bind_eq_none_iff.2 hright]

theorem word?_eq (hbase : 0 < base) :
    word? base digits = (natural? base digits).bind fun number => int64? number := by
  cases digits with
  | nil => rfl
  | cons c digits => exact wordFrom?_eq hbase rfl

theorem word?_of_numeral (hbase : base ≤ 16) (h : Numeral base digits number) :
    word? base digits = int64? number := by
  obtain ⟨c, rest, value, -, hvalue, -⟩ := h.exists_digit
  rw [word?_eq (by omega), (natural?_eq_some_iff hbase).2 h, Option.bind_some]

end ThriftIdl.Text

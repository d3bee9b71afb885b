import ThriftIdl.Json.Printing
import ThriftIdl.Json.Reading

/-!
Strings and integers in JSON text: reading undoes printing.
-/

namespace ThriftIdl.Json

theorem unit?_hexDigit {n : Nat} (h : n < 0x20) :
    unit? '0' '0' (hexDigit (n / 16)) (hexDigit (n % 16)) = some n := by
  have hall : ∀ m < 0x20, unit? '0' '0' (hexDigit (m / 16)) (hexDigit (m % 16)) = some m := by
    decide
  exact hall n h

theorem readString_plain {c : Char} (rest : List Char) (hquote : c ≠ '"') (hslash : c ≠ '\\')
    (hcontrol : ¬c.toNat < 0x20) :
    readString (c :: rest) = (readString rest).map (prepend c) := by
  rw [readString, if_neg hcontrol]
  all_goals simp_all

theorem readString_letter {letter c : Char} (rest : List Char) (h : escaped? letter = some c) :
    readString ('\\' :: letter :: rest) = (readString rest).map (prepend c) := by
  have hunit : letter ≠ 'u' := by
    rintro rfl
    simp [escaped?] at h
  rw [readString]
  · simp only [h]
  · intro a b c d tail heq
    exact absurd heq hunit

/-- An escaped character is read back, whatever follows it. -/
theorem readString_escape (c : Char) (rest : List Char) :
    readString (escape c ++ rest) = (readString rest).map (prepend c) := by
  unfold escape
  iterate 7
    split
    · next h => exact readString_letter rest (by rw [h]; rfl)
  split
  · next hcontrol =>
    have hplain : plain? c.toNat = some c := by
      rw [plain?, if_neg (by omega), Char.ofNat_toNat]
    simp [readString, unit?_hexDigit hcontrol, hplain]
  · next hquote hslash _ _ _ _ _ hcontrol =>
    exact readString_plain rest hquote hslash hcontrol

theorem readString_flatMap_escape (text rest : List Char) :
    readString (text.flatMap escape ++ '"' :: rest) = some (text, rest) := by
  induction text with
  | nil => simp [readString]
  | cons c text ih =>
    rw [List.flatMap_cons, List.append_assoc, readString_escape, ih]
    rfl

/-- A number that the text follows ends before it. -/
def EndsNumber (rest : List Char) : Prop :=
  ∀ c ∈ rest.head?, c.isDigit = false ∧ c ≠ '.' ∧ c ≠ 'e' ∧ c ≠ 'E'

theorem digit?_of_isDigit {c : Char} (h : c.isDigit = true) :
    Text.digit? 10 c = some (c.toNat - '0'.toNat) := by
  have hrange : '0' ≤ c ∧ c ≤ '9' := by
    simpa [Char.isDigit, Char.le_def, UInt32.le_iff_toNat_le] using h
  have hle : c.toNat ≤ 57 := by
    simpa [Char.le_def, UInt32.le_iff_toNat_le] using hrange.2
  have hlt : c.toNat - '0'.toNat < 10 := by
    have hzero : '0'.toNat = 48 := rfl
    omega
  simpa [Text.digit?, hrange] using hlt

theorem naturalFrom?_eq_ofDigitChars (digits : List Char) (value : Nat)
    (h : ∀ c ∈ digits, c.isDigit = true) :
    Text.naturalFrom? 10 value digits = some (Nat.ofDigitChars 10 digits value) := by
  induction digits generalizing value with
  | nil => rfl
  | cons c digits ih =>
    have hrest : ∀ d ∈ digits, d.isDigit = true := fun d hd => h d (List.mem_cons_of_mem c hd)
    rw [Text.naturalFrom?, digit?_of_isDigit (h c List.mem_cons_self), Option.bind_some,
      ih _ hrest, Nat.ofDigitChars_cons, Nat.mul_comm]

theorem isDigit_toDigits (n : Nat) : ∀ c ∈ Nat.toDigits 10 n, c.isDigit = true :=
  fun _ hc => Nat.isDigit_of_mem_toDigits (by decide) (by decide) hc

theorem natural?_toDigits (n : Nat) : Text.natural? 10 (Nat.toDigits 10 n) = some n := by
  have hread := naturalFrom?_eq_ofDigitChars _ 0 (isDigit_toDigits n)
  rw [Nat.ofDigitChars_ten_toDigits] at hread
  rw [Text.natural?]
  · exact hread
  · exact Nat.toDigits_ne_nil

theorem decimal_toDigits (n : Nat) : decimal (Nat.toDigits 10 n) = n := by
  rw [decimal, natural?_toDigits, Option.getD_some]

theorem head?_toDigits {n : Nat} (h : n ≠ 0) : (Nat.toDigits 10 n).head? ≠ some '0' := by
  induction n using Nat.strongRecOn with
  | ind n ih =>
    rw [Nat.toDigits_eq_if (by decide)]
    split
    · next hlt =>
      have hall : ∀ m < 10, m ≠ 0 → [Nat.digitChar m].head? ≠ some '0' := by decide
      exact hall n hlt h
    · have hhead := ih (n / 10) (by omega) (by omega)
      cases hdigits : Nat.toDigits 10 (n / 10) with
      | nil => exact absurd hdigits Nat.toDigits_ne_nil
      | cons c digits => simpa [hdigits] using hhead

theorem readDigits_append {digits rest : List Char} (hne : digits ≠ [])
    (hdigits : ∀ c ∈ digits, c.isDigit = true) (hrest : ∀ c ∈ rest.head?, c.isDigit = false) :
    readDigits (digits ++ rest) = some (digits, rest) := by
  have hstop : rest.takeWhile Char.isDigit = [] ∧ rest.dropWhile Char.isDigit = rest := by
    cases rest with
    | nil => simp
    | cons c rest => simp [hrest c (by simp)]
  have htake : (digits ++ rest).takeWhile Char.isDigit = digits := by
    rw [List.takeWhile_append_of_pos hdigits, hstop.1, List.append_nil]
  have hdrop : (digits ++ rest).dropWhile Char.isDigit = rest := by
    rw [List.dropWhile_append_of_pos hdigits, hstop.2]
  simp [readDigits, htake, hdrop, hne]

theorem readNumeral_toDigits (negative : Bool) (n : Nat) {rest : List Char}
    (hrest : EndsNumber rest) :
    readNumeral negative (Nat.toDigits 10 n ++ rest) =
      some (⟨negative, Nat.toDigits 10 n, none, none⟩, rest) := by
  have hdigits : readDigits (Nat.toDigits 10 n ++ rest) = some (Nat.toDigits 10 n, rest) :=
    readDigits_append Nat.toDigits_ne_nil (isDigit_toDigits n) fun c hc => (hrest c hc).1
  have hzero : ¬((Nat.toDigits 10 n).length > 1 ∧ (Nat.toDigits 10 n).head? = some '0') := by
    rintro ⟨hlong, hhead⟩
    by_cases hn : n = 0
    · subst hn
      simp at hlong
    · exact head?_toDigits hn hhead
  have hfraction : readFraction rest = some (none, rest) := by
    cases rest with
    | nil => rfl
    | cons c rest =>
      have hpoint : c ≠ '.' := (hrest c (by simp)).2.1
      rw [readFraction]
      simpa using hpoint
  have hexponent : readExponent rest = some (none, rest) := by
    cases rest with
    | nil => rfl
    | cons c rest =>
      have hmark := (hrest c (by simp)).2.2
      simp [readExponent, hmark]
  simp [readNumeral, hdigits, hzero, hfraction, hexponent]

/-- The integer fits 64 bits, signed or unsigned. -/
def InRange (value : Int) : Prop := -0x8000000000000000 ≤ value ∧ value < 0x10000000000000000

theorem value?_toDigits {value : Int} (h : InRange value) :
    Numeral.value? ⟨decide (value < 0), Nat.toDigits 10 value.natAbs, none, none⟩ =
      some (.integer value) := by
  obtain ⟨hlow, hhigh⟩ := h
  have hinteger : Numeral.isInteger
      ⟨decide (value < 0), Nat.toDigits 10 value.natAbs, none, none⟩ = true := by
    by_cases hneg : value < 0
    · simp only [Numeral.isInteger, decimal_toDigits, Text.wordSize, hneg]
      simp
      omega
    · simp only [Numeral.isInteger, decimal_toDigits, Text.wordSize, hneg]
      simp
      omega
  have hsigned : Text.signed (decide (value < 0)) value.natAbs = value := by
    rw [Text.signed]
    by_cases hneg : value < 0
    · rw [if_pos (decide_eq_true hneg)]
      omega
    · rw [if_neg (by simpa using hneg)]
      omega
  rw [Numeral.value?, if_pos hinteger, decimal_toDigits, hsigned]

theorem readNumber_ofInt {value : Int} (hvalue : InRange value) {rest : List Char}
    (hrest : EndsNumber rest) :
    readNumber ((Text.ofInt value).toList ++ rest) = some (.integer value, rest) := by
  have hread := readNumeral_toDigits (decide (value < 0)) value.natAbs hrest
  have hvalue := value?_toDigits hvalue
  by_cases hneg : value < 0
  · simp only [hneg, decide_true] at hread hvalue
    simp [readNumber, Text.ofInt, hneg, hread, hvalue]
  · simp only [hneg, decide_false] at hread hvalue
    cases hdigits : Nat.toDigits 10 value.natAbs with
    | nil => exact absurd hdigits Nat.toDigits_ne_nil
    | cons c digits =>
      -- The first character is a digit, so the text does not open with a sign.
      have hminus : c ≠ '-' := by
        have hc := isDigit_toDigits value.natAbs c (by simp [hdigits])
        rintro rfl
        exact absurd hc (by decide)
      rw [hdigits] at hread hvalue
      rw [Text.ofInt, if_neg hneg, String.toList_ofList, hdigits, readNumber]
      · simp only [hread, hvalue, Option.pure_def, Option.bind_eq_bind, Option.bind_some]
      · intro tail heq
        exact hminus (List.cons.inj heq).1

end ThriftIdl.Json

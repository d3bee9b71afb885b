import ThriftIdl.Line
import ThriftIdl.Proofs.Text.Ends

/-!
The comment of a line. Nothing before it is changed, so the text up to a comment has none, and
neither has a text without quotes and the marks of comments. Cleaning leaves a text without comment
as it is if there is nothing to take from its ends.
-/

namespace ThriftIdl.Line

variable {raw text : List Char}

theorem uncomment_prefix_self (quote : Option Char) (raw : List Char) :
    uncomment quote raw <+: raw := by
  fun_induction uncomment quote raw with
  | case1 => exact List.nil_prefix
  | case2 c d rest ih => exact (List.prefix_cons_inj _).2 ((List.prefix_cons_inj _).2 ih)
  | case3 c rest q _ ih => exact (List.prefix_cons_inj _).2 ih
  | case4 => exact List.nil_prefix
  | case5 => exact List.nil_prefix
  | case6 c rest _ _ ih => exact (List.prefix_cons_inj _).2 ih

theorem uncomment_some_cons {quote c : Char} (h : c ≠ '\\') (rest : List Char) :
    uncomment (some quote) (c :: rest) =
      c :: uncomment (if c = quote then none else some quote) rest := by
  rw [uncomment]
  rintro d more rfl
  exact absurd rfl h

theorem uncomment_none_cons {c : Char} {rest : List Char} (hhash : c ≠ '#')
    (hslash : c = '/' → rest.head? ≠ some '/') :
    uncomment none (c :: rest) =
      c :: uncomment (if isQuote c then some c else none) rest := by
  rw [uncomment]
  · exact hhash
  · rintro more hc rfl
    exact hslash hc rfl

/-- A part of a text up to its comment has no comment. -/
theorem uncomment_of_prefix {quote : Option Char} {part : List Char}
    (h : part <+: uncomment quote raw) : uncomment quote part = part := by
  fun_induction uncomment quote raw generalizing part with
  | case1 quote =>
    rw [List.prefix_nil.1 h, uncomment]
  | case2 quote d more ih =>
    rcases List.prefix_cons_iff.1 h with rfl | ⟨_, rfl, hrest⟩
    · rw [uncomment]
    · rcases List.prefix_cons_iff.1 hrest with rfl | ⟨part, rfl, hpart⟩
      · simp [uncomment]
      · rw [uncomment, ih hpart]
  | case3 quote c rest hescape ih =>
    rcases List.prefix_cons_iff.1 h with rfl | ⟨part, rfl, hpart⟩
    · rw [uncomment]
    · by_cases hc : c = '\\'
      · cases rest with
        | nil =>
          rw [uncomment, List.prefix_nil] at hpart
          simp [hc, hpart, uncomment]
        | cons d more => exact absurd rfl (hescape d more hc)
      · rw [uncomment_some_cons hc, ih hpart]
  | case4 rest => rw [List.prefix_nil.1 h, uncomment]
  | case5 rest => rw [List.prefix_nil.1 h, uncomment]
  | case6 c rest hhash hslash ih =>
    rcases List.prefix_cons_iff.1 h with rfl | ⟨part, rfl, hpart⟩
    · rw [uncomment]
    · have hsecond : c = '/' → part.head? ≠ some '/' := by
        intro hc hhead
        obtain ⟨more, rfl⟩ := List.head?_eq_some_iff.1 hhead
        obtain ⟨tail, htail⟩ := hpart.trans (uncomment_prefix_self _ rest)
        exact hslash _ hc htail.symm
      rw [uncomment_none_cons hhash hsecond, ih hpart]

theorem uncomment_uncomment (raw : List Char) :
    uncomment none (uncomment none raw) = uncomment none raw :=
  uncomment_of_prefix List.prefix_rfl

/-- Before the first quote and the first mark of a comment the whole text is kept. -/
theorem uncomment_bare (h : ∀ c ∈ text, c ≠ '#' ∧ c ≠ '/' ∧ isQuote c = false) (rest : List Char) :
    uncomment none (text ++ rest) = text ++ uncomment none rest := by
  induction text with
  | nil => rfl
  | cons c text ih =>
    rw [List.forall_mem_cons] at h
    obtain ⟨⟨hhash, hslash, hquote⟩, htext⟩ := h
    rw [List.cons_append, uncomment_none_cons hhash (fun hc => absurd hc hslash),
      if_neg (by simp [hquote]), ih htext]
    rfl

theorem uncomment_blanks {blanks : List Char} (h : ∀ c ∈ blanks, Text.isBlank c = true)
    (rest : List Char) : uncomment none (blanks ++ rest) = blanks ++ uncomment none rest := by
  apply uncomment_bare
  intro c hc
  have hne : ∀ d, Text.isBlank d = false → c ≠ d := by
    rintro d hd rfl
    rw [h c hc] at hd
    cases hd
  simp [isQuote, hne '#' (by decide), hne '/' (by decide), hne '"' (by decide),
    hne '\'' (by decide)]

/-- What cleaning makes of a line without comments. -/
theorem clean_eq (h : uncomment none raw = raw) :
    clean raw = Text.trimEnd (Text.dropEndWhile isSeparator (Text.trim raw)) := by
  rw [clean, h]

theorem clean_prefix_trimStart (raw : List Char) :
    clean raw <+: Text.trimStart (uncomment none raw) :=
  ((List.rdropWhile_prefix _ _).trans (List.rdropWhile_prefix _ _)).trans
    (List.rdropWhile_prefix _ _)

/-- Cleaning does not look for a comment in a cleaned line. -/
theorem uncomment_clean (raw : List Char) : uncomment none (clean raw) = clean raw := by
  obtain ⟨indent, hindent, hblank⟩ := Text.exists_trimStart (uncomment none raw)
  have hplain := uncomment_uncomment raw
  rw [hindent, uncomment_blanks hblank] at hplain
  have hprefix := clean_prefix_trimStart raw
  rw [← List.append_cancel_left hplain] at hprefix
  exact uncomment_of_prefix hprefix

/-- Cleaning leaves no blank at the start of a line. -/
theorem isBlank_of_head?_clean : ∀ c ∈ (clean raw).head?, Text.isBlank c = false :=
  Text.isBlank_of_prefix_trimStart (clean_prefix_trimStart raw)

/-- Cleaning leaves no blank at the end of a line. -/
theorem isBlank_of_getLast?_clean : ∀ c ∈ (clean raw).getLast?, Text.isBlank c = false :=
  Text.of_getLast?_dropEndWhile

/-- A text is cleaned to itself exactly if it has no comment, starts with no blank and ends neither in a
blank nor in a separator. -/
theorem clean_eq_self_iff :
    clean text = text ↔ uncomment none text = text ∧ (∀ c ∈ text.head?, Text.isBlank c = false) ∧
      ∀ c ∈ text.getLast?, Text.isBlank c = false ∧ isSeparator c = false := by
  constructor
  · intro h
    have hhead := @isBlank_of_head?_clean text
    have hblank := @isBlank_of_getLast?_clean text
    have hplain := uncomment_clean text
    rw [h] at hhead hblank hplain
    have hpart : Text.dropEndWhile isSeparator text <+: text := List.rdropWhile_prefix _ _
    have hwhole : text <+: Text.dropEndWhile isSeparator text := by
      rw [clean_eq hplain, Text.trim_eq_self hhead hblank] at h
      conv_lhs => rw [← h]
      exact List.rdropWhile_prefix _ _
    have hseparator := Text.dropEndWhile_eq_self_iff.1 (hpart.eq_of_length_le hwhole.length_le)
    exact ⟨hplain, hhead, fun c hc => ⟨hblank c hc, hseparator c hc⟩⟩
  · rintro ⟨huncomment, hhead, hlast⟩
    have hblank : ∀ c ∈ text.getLast?, Text.isBlank c = false := fun c hc => (hlast c hc).1
    have hseparator : Text.dropEndWhile isSeparator text = text :=
      Text.dropEndWhile_eq_self_iff.2 fun c hc => (hlast c hc).2
    rw [clean_eq huncomment, Text.trim_eq_self hhead hblank, hseparator]
    exact Text.dropEndWhile_eq_self_iff.2 hblank

/-- A raw line leaves the line with its number and its cleaned text, unless nothing is left of this. -/
theorem ofRaw?_eq_some_iff {number : Nat} {raw : String} {line : Line} :
    ofRaw? number raw = some line ↔
      line.number = number ∧ line.text.toList = clean raw.toList ∧ clean raw.toList ≠ [] := by
  obtain ⟨lineNumber, text⟩ := line
  rw [ofRaw?]
  split
  · next hclean => simp [hclean]
  · next c rest hclean =>
    rw [Option.some.injEq, mk.injEq, hclean, ← String.toList_inj, String.toList_ofList]
    constructor
    · rintro ⟨hnumber, htext⟩
      exact ⟨hnumber.symm, htext.symm, List.cons_ne_nil c rest⟩
    · rintro ⟨hnumber, htext, -⟩
      exact ⟨hnumber.symm, htext.symm⟩

end ThriftIdl.Line

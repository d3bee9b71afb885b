import ThriftIdl.Proofs.Comments
import ThriftIdl.Proofs.Scanning

/-!
Two lines and the one they make up with a blank between them. Cleaning takes the separators from the
end of every line, so the joined line keeps those that the first line ends in and that are lost
before a line break.
-/

namespace ThriftIdl

namespace Line

/-- The separators that a line ends in, blanks after them aside. -/
def ending (raw : List Char) : List Char := (Text.trim raw).rtakeWhile isSeparator

end Line

namespace Lexeme

theorem endsWord_of_isLoose {c : Char} (h : isLoose c = true) : endsWord c = true := by
  simp only [isLoose, Bool.or_eq_true, Line.isSeparator, beq_iff_eq] at h
  rcases h with h | rfl | rfl
  · simp [endsWord, h]
  · decide
  · decide

/-- Of loose characters before a text the separators are scanned. -/
theorem scan_loose_append {loose : List Char} (h : ∀ c ∈ loose, isLoose c = true)
    (rest : List Char) :
    scan (loose ++ rest) = (loose.filter Line.isSeparator).map mark ++ scan rest := by
  induction loose with
  | nil => rfl
  | cons c loose ih =>
    rw [List.forall_mem_cons] at h
    cases hseparator : Line.isSeparator c with
    | false =>
      have hblank : Text.isBlank c = true := by simpa [isLoose, hseparator] using h.1
      rw [List.cons_append, scan_blank hblank, ih h.2,
        List.filter_cons_of_neg (by simp [hseparator])]
    | true =>
      have hscan : scan (c :: (loose ++ rest)) = mark c :: scan (loose ++ rest) := by
        simp only [Line.isSeparator, Bool.or_eq_true, beq_iff_eq] at hseparator
        rcases hseparator with rfl | rfl
        · rw [scan, if_neg (by decide), if_pos (by decide)]
        · rw [scan, if_neg (by decide), if_pos (by decide)]
      rw [List.cons_append, hscan, ih h.2, List.filter_cons_of_pos hseparator]
      rfl

/-- A text without lexemes is blank. -/
theorem isBlank_of_scan {text : List Char} (h : scan text = []) :
    ∀ c ∈ text, Text.isBlank c = true := by
  induction text with
  | nil => exact fun _ hc => absurd hc List.not_mem_nil
  | cons c rest ih =>
    rw [scan] at h
    split at h
    · next hblank =>
      rw [List.forall_mem_cons]
      exact ⟨hblank, ih h⟩
    · split at h
      · cases h
      · split at h
        · cases h
        · cases h

/-- Outside literals and brackets, loose characters part a text in two. -/
theorem scan_append_loose_append {text loose : List Char} (hout : (placeAfter text).Outside)
    (h : ∀ c ∈ loose, isLoose c = true) {rest : List Char} (hne : loose ≠ [] ∨ rest = []) :
    scan (text ++ (loose ++ rest)) =
      scan text ++ ((loose.filter Line.isSeparator).map mark ++ scan rest) := by
  rw [← scan_loose_append h]
  cases loose with
  | nil =>
    obtain rfl : rest = [] := hne.resolve_left (by simp)
    simp
  | cons c loose =>
    rw [List.forall_mem_cons] at h
    exact scan_append_of_outside hout (endsWord_of_isLoose h.1) (loose ++ rest)

end Lexeme

namespace Line

open Lexeme (scan mark placeAfter)

variable {left right : List Char}

/-- Cleaning takes the separators from the end of a trimmed line, and blanks before them. -/
theorem exists_trim_eq (h : uncomment none left = left) :
    ∃ blanks, Text.trim left = clean left ++ (blanks ++ ending left) ∧
      ∀ c ∈ blanks, Text.isBlank c = true := by
  obtain ⟨blanks, hblanks, hblank⟩ := Text.exists_dropEndWhile Text.isBlank
    (Text.dropEndWhile isSeparator (Text.trim left))
  have htrim : Text.dropEndWhile isSeparator (Text.trim left) ++ ending left = Text.trim left :=
    List.rdropWhile_append_rtakeWhile
  have hclean : clean left ++ blanks = Text.dropEndWhile isSeparator (Text.trim left) := by
    rw [clean_eq h]
    exact hblanks.symm
  refine ⟨blanks, ?_, hblank⟩
  rw [← List.append_assoc, hclean, htrim]

theorem isSeparator_of_isBlank {c : Char} (h : Text.isBlank c = true) : isSeparator c = false := by
  rw [Bool.eq_false_iff]
  intro hseparator
  simp only [isSeparator, Bool.or_eq_true, beq_iff_eq] at hseparator
  rcases hseparator with rfl | rfl
  · exact absurd h (by decide)
  · exact absurd h (by decide)

theorem filter_blanks {blanks : List Char} (h : ∀ c ∈ blanks, Text.isBlank c = true) :
    blanks.filter isSeparator = [] := by
  rw [List.filter_eq_nil_iff]
  intro c hc
  simp [isSeparator_of_isBlank (h c hc)]

theorem isSeparator_of_mem_ending {c : Char} (h : c ∈ ending left) : isSeparator c = true :=
  List.mem_rtakeWhile_imp h

/-- Of an ending and blanks around it the ending is scanned. -/
theorem filter_ending {before after : List Char} (hbefore : ∀ c ∈ before, Text.isBlank c = true)
    (hafter : ∀ c ∈ after, Text.isBlank c = true) :
    (before ++ ending left ++ after).filter isSeparator = ending left := by
  have hending : (ending left).filter isSeparator = ending left :=
    List.filter_eq_self.2 fun c hc => isSeparator_of_mem_ending hc
  rw [List.filter_append, List.filter_append, filter_blanks hbefore, filter_blanks hafter, hending]
  simp

theorem isLoose_of_blanks {blanks : List Char} (h : ∀ c ∈ blanks, Text.isBlank c = true) :
    ∀ c ∈ blanks, Lexeme.isLoose c = true :=
  fun c hc => by simp [Lexeme.isLoose, h c hc]

theorem isLoose_ending {before after : List Char} (hbefore : ∀ c ∈ before, Text.isBlank c = true)
    (hafter : ∀ c ∈ after, Text.isBlank c = true) :
    ∀ c ∈ before ++ ending left ++ after, Lexeme.isLoose c = true := by
  simp only [List.forall_mem_append]
  refine ⟨⟨isLoose_of_blanks hbefore, ?_⟩, isLoose_of_blanks hafter⟩
  exact fun c hc => by simp [Lexeme.isLoose, isSeparator_of_mem_ending hc]

theorem run_blanks {blanks : List Char} (h : ∀ c ∈ blanks, Text.isBlank c = true) :
    (Lexeme.Place.between.run blanks).2 = .between := by
  induction blanks with
  | nil => rfl
  | cons c blanks ih =>
    rw [List.forall_mem_cons] at h
    rw [Lexeme.Place.run, Lexeme.Place.advance, Lexeme.Place.start, if_pos h.1]
    exact ih h.2

/-- A line trimmed at its start is what cleaning leaves, the ending, and blanks around it. -/
theorem exists_trimStart_eq (h : uncomment none left = left) :
    ∃ before after, Text.trimStart left = clean left ++ (before ++ ending left ++ after) ∧
      (∀ c ∈ before, Text.isBlank c = true) ∧ ∀ c ∈ after, Text.isBlank c = true := by
  obtain ⟨after, hafter, hafterBlank⟩ := Text.exists_dropEndWhile Text.isBlank (Text.trimStart left)
  obtain ⟨before, hbefore, hbeforeBlank⟩ := exists_trim_eq h
  refine ⟨before, after, ?_, hbeforeBlank, hafterBlank⟩
  rw [← List.append_assoc, ← hbefore]
  exact hafter

/-- The cleaned line ends outside literals and brackets if the line does. -/
theorem outside_clean (hplain : uncomment none left = left) (h : (placeAfter left).Outside) :
    (placeAfter (clean left)).Outside := by
  obtain ⟨blanks, hleft, hblanks⟩ := Text.exists_trimStart left
  obtain ⟨before, after, hstart, hbefore, hafter⟩ := exists_trimStart_eq hplain
  have hplace : placeAfter left = placeAfter (Text.trimStart left) := by
    conv_lhs => rw [hleft, Lexeme.placeAfter_append, placeAfter, run_blanks hblanks]
    rfl
  rw [hplace, hstart] at h
  exact Lexeme.outside_of_append (isLoose_ending hbefore hafter) h

theorem trimStart_ne_nil (h : scan left ≠ []) : Text.trimStart left ≠ [] := by
  intro hstart
  obtain ⟨blanks, hleft, hblanks⟩ := Text.exists_trimStart left
  have hscan := Lexeme.scan_loose_append (isLoose_of_blanks hblanks) []
  rw [hstart, List.append_nil] at hleft
  rw [filter_blanks hblanks, List.append_nil, ← hleft, Lexeme.scan_nil] at hscan
  exact h hscan

/-- A joined line is trimmed at the start of its first part and at the end of its second. -/
theorem trim_joined (hleft : Text.trimStart left ≠ []) (hright : Text.trimStart right ≠ []) :
    ∃ blanks, (∀ c ∈ blanks, Text.isBlank c = true) ∧
      Text.trim (left ++ ' ' :: right) =
        (Text.trimStart left ++ ' ' :: blanks) ++ Text.trim right := by
  obtain ⟨blanks, hblanks, hblank⟩ := Text.exists_trimStart right
  have hstart : Text.trimStart (left ++ ' ' :: right) = Text.trimStart left ++ ' ' :: right := by
    rw [Text.trimStart, List.dropWhile_append, if_neg]
    · rfl
    · rw [List.isEmpty_iff]
      exact hleft
  refine ⟨blanks, hblank, ?_⟩
  rw [Text.trim, hstart]
  conv_lhs => rw [hblanks]
  rw [← List.cons_append, ← List.append_assoc, Text.trimEnd]
  exact Text.dropEndWhile_append_of_ne_nil (Text.trimEnd_ne_nil List.prefix_rfl hright)

/-- What cleaning makes of a joined line. If the second line holds more than separators, nothing is
taken from the first but blanks at its start; else the first line is trimmed. -/
theorem clean_joined (hleft : Text.trimStart left ≠ []) (hright : Text.trimStart right ≠ [])
    (hplainRight : uncomment none right = right)
    (hplain : uncomment none (left ++ ' ' :: right) = left ++ ' ' :: right) :
    (clean right = [] ∧ clean (left ++ ' ' :: right) = Text.trim left) ∨
      ∃ blanks, (∀ c ∈ blanks, Text.isBlank c = true) ∧
        clean (left ++ ' ' :: right) =
          Text.trimStart left ++ (' ' :: blanks ++ clean right) := by
  obtain ⟨blanks, hblank, htrim⟩ := trim_joined hleft hright
  rw [clean_eq hplain, clean_eq hplainRight, htrim]
  by_cases hseparators : Text.dropEndWhile isSeparator (Text.trim right) = []
  · left
    -- The separators end where the blanks between the parts begin, so the first part keeps its own.
    obtain ⟨tail, htail, hseparator⟩ := Text.exists_dropEndWhile isSeparator (Text.trim right)
    have hgap : Text.dropEndWhile isSeparator (' ' :: blanks) = ' ' :: blanks := by
      apply Text.dropEndWhile_eq_self
      rw [List.forall_mem_cons]
      exact ⟨by decide, fun c hc => isSeparator_of_isBlank (hblank c hc)⟩
    have hloose : ∀ c ∈ ' ' :: blanks, Text.isBlank c = true := by
      rw [List.forall_mem_cons]
      exact ⟨by decide, hblank⟩
    rw [hseparators, List.nil_append] at htail
    rw [← htail] at hseparator
    refine ⟨by rw [hseparators]; rfl, ?_⟩
    rw [Text.dropEndWhile_append_of_all hseparator,
      Text.dropEndWhile_append_of_ne_nil (by rw [hgap]; exact List.cons_ne_nil _ _), hgap,
      Text.trimEnd, Text.dropEndWhile_append_of_all hloose]
    rfl
  · right
    have hinitial : Text.dropEndWhile isSeparator (Text.trim right) <+: Text.trimStart right :=
      (List.rdropWhile_prefix _ _).trans (List.rdropWhile_prefix _ _)
    have hne := Text.trimEnd_ne_nil hinitial hseparators
    refine ⟨blanks, hblank, ?_⟩
    rw [Text.dropEndWhile_append_of_ne_nil hseparators, Text.trimEnd,
      Text.dropEndWhile_append_of_ne_nil hne, List.append_assoc]
    rfl

/-- Where a blank parts two tokens of a line, the line has the tokens of both parts and between them
the separators that the first part ends in. -/
theorem scan_clean_between (hleft : scan left ≠ []) (hright : scan right ≠ [])
    (hparted : scan (left ++ ' ' :: right) = scan left ++ scan right)
    (hplainLeft : uncomment none left = left) (hplainRight : uncomment none right = right)
    (hplain : uncomment none (left ++ ' ' :: right) = left ++ ' ' :: right) :
    scan (clean (left ++ ' ' :: right)) =
      scan (clean left) ++ ((ending left).map mark ++ scan (clean right)) := by
  have hout := outside_clean hplainLeft (Lexeme.outside_of_parted hright hparted)
  rcases clean_joined (trimStart_ne_nil hleft) (trimStart_ne_nil hright) hplainRight hplain with
    ⟨hnone, hjoined⟩ | ⟨blanks, hblanks, hjoined⟩
  · obtain ⟨before, htrim, hbefore⟩ := exists_trim_eq hplainLeft
    have hscan := @Lexeme.scan_append_loose_append (clean left) (before ++ ending left ++ []) hout
      (isLoose_ending hbefore (by simp)) [] (Or.inr rfl)
    rw [filter_ending hbefore (by simp)] at hscan
    simpa [hjoined, htrim, hnone] using hscan
  · obtain ⟨before, after, hstart, hbefore, hafter⟩ := exists_trimStart_eq hplainLeft
    have hgap : ∀ c ∈ after ++ ' ' :: blanks, Text.isBlank c = true := by
      rw [List.forall_mem_append, List.forall_mem_cons]
      exact ⟨hafter, by decide, hblanks⟩
    have hscan := @Lexeme.scan_append_loose_append (clean left)
      (before ++ ending left ++ (after ++ ' ' :: blanks)) hout (isLoose_ending hbefore hgap)
      (clean right) (Or.inl (by simp))
    rw [filter_ending hbefore hgap] at hscan
    rw [hjoined, hstart, ← hscan]
    simp only [List.append_assoc, List.cons_append]

section Blanks

variable {blanks : List Char}

theorem clean_blanks (h : ∀ c ∈ blanks, Text.isBlank c = true)
    (hplain : uncomment none blanks = blanks) : clean blanks = [] := by
  rw [clean_eq hplain, Text.trim_blanks h]
  rfl

theorem ending_blanks (h : ∀ c ∈ blanks, Text.isBlank c = true) : ending blanks = [] := by
  rw [ending, Text.trim_blanks h]
  rfl

theorem clean_append_blanks (h : ∀ c ∈ blanks, Text.isBlank c = true)
    (hplainLeft : uncomment none left = left)
    (hplain : uncomment none (left ++ blanks) = left ++ blanks) :
    clean (left ++ blanks) = clean left := by
  have htrim : Text.trim (left ++ blanks) = Text.trim left := by
    rw [Text.trim, Text.trim, Text.trimStart, Text.trimStart, List.dropWhile_append]
    split
    · next hnil =>
      rw [List.isEmpty_iff] at hnil
      have hblanks : blanks.dropWhile Text.isBlank = [] := List.dropWhile_eq_nil_iff.2 h
      rw [hnil, hblanks]
    · exact Text.dropEndWhile_append_of_all h
  rw [clean_eq hplain, clean_eq hplainLeft, htrim]

theorem clean_blanks_append (h : ∀ c ∈ blanks, Text.isBlank c = true)
    (hplainRight : uncomment none right = right)
    (hplain : uncomment none (blanks ++ right) = blanks ++ right) :
    clean (blanks ++ right) = clean right := by
  have htrim : Text.trim (blanks ++ right) = Text.trim right := by
    rw [Text.trim, Text.trim, Text.trimStart, Text.trimStart, List.dropWhile_append_of_pos h]
  rw [clean_eq hplain, clean_eq hplainRight, htrim]

end Blanks

/-- The separators that the first of two lines loses and the joined line keeps, since something
stands after them. -/
def lost (left right : List Char) : List Char := if scan right = [] then [] else ending left

theorem isSeparator_of_mem_lost {c : Char} (h : c ∈ lost left right) : isSeparator c = true := by
  rw [lost] at h
  split at h
  · cases h
  · exact isSeparator_of_mem_ending h

/-- Where a blank stands between two tokens of a line, or beside its other blanks, the line has the
tokens of both parts and between them the separators that are lost if it is broken there. -/
theorem scan_clean_joined (hparted : scan (left ++ ' ' :: right) = scan left ++ scan right)
    (hplainLeft : uncomment none left = left) (hplainRight : uncomment none right = right)
    (hplain : uncomment none (left ++ ' ' :: right) = left ++ ' ' :: right) :
    scan (clean (left ++ ' ' :: right)) =
      scan (clean left) ++ ((lost left right).map mark ++ scan (clean right)) := by
  by_cases hright : scan right = []
  · have hblanks := Lexeme.isBlank_of_scan hright
    have hgap : ∀ c ∈ ' ' :: right, Text.isBlank c = true := by
      rw [List.forall_mem_cons]
      exact ⟨by decide, hblanks⟩
    rw [clean_append_blanks hgap hplainLeft hplain, clean_blanks hblanks hplainRight, lost,
      if_pos hright, Lexeme.scan_nil]
    simp
  by_cases hleft : scan left = []
  · have hblanks := Lexeme.isBlank_of_scan hleft
    have hgap : ∀ c ∈ left ++ [' '], Text.isBlank c = true := by
      rw [List.forall_mem_append, List.forall_mem_singleton]
      exact ⟨hblanks, by decide⟩
    have hline : left ++ ' ' :: right = left ++ [' '] ++ right := by simp
    rw [hline] at hplain
    rw [hline, clean_blanks_append hgap hplainRight hplain, clean_blanks hblanks hplainLeft, lost,
      if_neg hright, ending_blanks hblanks, Lexeme.scan_nil]
    rfl
  · rw [lost, if_neg hright]
    exact scan_clean_between hleft hright hparted hplainLeft hplainRight hplain

end Line

end ThriftIdl

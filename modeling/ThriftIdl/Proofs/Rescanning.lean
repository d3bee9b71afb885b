import Mathlib.Data.List.Chain
import ThriftIdl.Proofs.Scanning

/-!
Lexemes that are scanned again. A lexeme that scanning gives is what its own text is scanned to.
What follows it is taken into it inside a literal or brackets that are not closed, and at the end of
a word up to a character that ends words.
-/

namespace ThriftIdl

namespace Lexeme

/-- The lexeme is one that scanning may give. -/
def Formed : Lexeme → Prop
  | word text => ∃ c rest, endsWord c = false ∧
      text.toList = c :: (splitWord (nest [] c) rest).1
  | literal text => ∃ quote rest, Line.isQuote quote = true ∧
      text.toList = quote :: (splitLiteral quote rest).1
  | mark c => isMark c = true

/-- No literal and no bracket is open at the end of the lexeme. -/
def Closed (lexeme : Lexeme) : Prop := (placeAfter lexeme.text.toList).Outside

instance (place : Place) : Decidable place.Outside :=
  match place with
  | .between => .isTrue trivial
  | .literal .. => .isFalse not_false
  | .word opened _ => inferInstanceAs (Decidable (opened = []))

instance : DecidablePred Closed :=
  fun lexeme => inferInstanceAs (Decidable (placeAfter lexeme.text.toList).Outside)

/-- The lexeme is a word. -/
def isWord : Lexeme → Bool
  | word _ => true
  | _ => false

theorem isBlank_of_isMark {c : Char} (h : isMark c = true) : Text.isBlank c = false := by
  rw [isMark, List.contains_iff_mem] at h
  have hall : "\x7b\x7d()=:,;".toList.all (!Text.isBlank ·) = true := by decide
  simpa using List.all_eq_true.1 hall c h

theorem start_of_isQuote {c : Char} (h : Line.isQuote c = true) :
    Place.start c = ([], .literal c false [c]) := by
  simp only [Line.isQuote, Bool.or_eq_true, beq_iff_eq] at h
  rcases h with rfl | rfl
  · rfl
  · rfl

theorem start_of_not_endsWord {c : Char} (h : endsWord c = false) :
    Place.start c = ([], .word (nest [] c) [c]) := by
  simp only [endsWord, Bool.or_eq_false_iff] at h
  simp [Place.start, h]

/-- Scanned inside the word that it was split from, the text goes on with the word to its end. If the
word ended before something, all brackets are closed. -/
theorem run_splitWord (opened before rest : List Char) :
    ∃ inside, (Place.word opened before).run (splitWord opened rest).1 =
        ([], .word inside (before ++ (splitWord opened rest).1)) ∧
      ((splitWord opened rest).2 ≠ [] → inside = []) := by
  induction rest generalizing opened before with
  | nil => exact ⟨opened, by simp [splitWord, Place.run], by simp [splitWord]⟩
  | cons c rest ih =>
    rw [splitWord_cons]
    by_cases hends : (opened.isEmpty && endsWord c) = true
    · rw [if_pos hends]
      rw [Bool.and_eq_true, List.isEmpty_iff] at hends
      exact ⟨opened, by simp [Place.run], fun _ => hends.1⟩
    · rw [if_neg hends]
      by_cases hdropped : (Text.isBlank c && opened.head? == some '<') = true
      · rw [if_pos hdropped]
        rw [Bool.and_eq_true] at hdropped
        rw [nest_of_isLoose (by simp [isLoose, hdropped.1])]
        exact ih opened before
      · rw [if_neg hdropped]
        obtain ⟨inside, hrun, hinside⟩ := ih (nest opened c) (before ++ [c])
        refine ⟨inside, ?_, hinside⟩
        rw [Place.run, Place.advance, if_neg hends, if_neg hdropped]
        dsimp only
        rw [hrun, List.append_assoc]
        rfl

/-- Scanned inside the literal that it was split from, the text closes it, or it leaves it open at the
end of what was split. -/
theorem run_splitLiteral {quote : Char} (hquote : quote ≠ '\\') (before rest : List Char) :
    (Place.literal quote false before).run (splitLiteral quote rest).1 =
        ([.literal (String.ofList (before ++ (splitLiteral quote rest).1))], .between) ∨
      (splitLiteral quote rest).2 = [] ∧
        ∃ escaped, (Place.literal quote false before).run (splitLiteral quote rest).1 =
          ([], .literal quote escaped (before ++ (splitLiteral quote rest).1)) := by
  fun_induction splitLiteral quote rest generalizing before with
  | case1 => exact .inr ⟨rfl, false, by simp [Place.run]⟩
  | case2 c rest inner after hsplit ih =>
    rw [hsplit] at ih
    have hstep : (Place.literal quote false before).run ('\\' :: c :: inner) =
        (Place.literal quote false (before ++ ['\\'] ++ [c])).run inner := by
      simp [Place.run, Place.advance]
    rw [hstep]
    simpa using ih (before ++ ['\\'] ++ [c])
  | case3 rest hescape =>
    exact .inl (by simp [Place.run, Place.advance, hquote])
  | case4 c rest hescape hother inner after hsplit ih =>
    rw [hsplit] at ih
    by_cases hslash : c = '\\'
    · obtain rfl : rest = [] := by
        cases rest with
        | nil => rfl
        | cons d rest => exact absurd rfl (hescape d rest hslash)
      cases hsplit
      exact .inr ⟨rfl, true, by simp [Place.run, Place.advance, hslash]⟩
    · have hstep : (Place.literal quote false before).run (c :: inner) =
          (Place.literal quote false (before ++ [c])).run inner := by
        simp [Place.run, Place.advance, hslash, hother]
      rw [hstep]
      simpa using ih (before ++ [c])

theorem run_mark {c : Char} (h : isMark c = true) :
    Place.between.run [c] = ([mark c], .between) := by
  simp [Place.run, Place.advance, Place.start, isBlank_of_isMark h, h]

theorem run_literal {text : String} (h : (literal text).Formed) :
    Place.between.run text.toList = ([literal text], .between) ∨
      ∃ quote escaped, Place.between.run text.toList =
        ([], .literal quote escaped text.toList) := by
  obtain ⟨quote, rest, hquote, htext⟩ := h
  have hslash : quote ≠ '\\' := by
    rintro rfl
    exact absurd hquote (by decide)
  rw [htext, Place.run, Place.advance, start_of_isQuote hquote]
  rcases run_splitLiteral hslash [quote] rest with hrun | ⟨-, escaped, hrun⟩
  · left
    dsimp only
    rw [hrun, List.singleton_append, ← htext, String.ofList_toList]
    rfl
  · right
    refine ⟨quote, escaped, ?_⟩
    dsimp only
    rw [hrun]
    rfl

theorem run_word {text : String} (h : (word text).Formed) :
    ∃ inside, Place.between.run text.toList = ([], .word inside text.toList) := by
  obtain ⟨c, rest, hc, htext⟩ := h
  obtain ⟨inside, hrun, -⟩ := run_splitWord (nest [] c) [c] rest
  refine ⟨inside, ?_⟩
  rw [htext, Place.run, Place.advance, start_of_not_endsWord hc]
  dsimp only
  rw [hrun]
  rfl

namespace Place

/-- At the place the character, if it is not blank, goes on with the lexeme begun. -/
def Takes : Place → Char → Prop
  | between, _ => False
  | literal .., _ => True
  | word opened _, c => ¬(opened = [] ∧ endsWord c = true)

end Place

theorem scanFrom_of_not_takes {place : Place} {c : Char} (h : ¬place.Takes c)
    (rest : List Char) : scanFrom place (c :: rest) = scanFrom place [] ++ scan (c :: rest) := by
  rcases place with _ | _ | ⟨opened, text⟩
  · simp only [scanFrom, scan_nil, List.nil_append]
  · exact absurd trivial h
  · obtain ⟨hopened, hends⟩ := Classical.not_not.1 h
    have houtside : (Place.word opened text).Outside := hopened
    exact scanFrom_of_outside houtside hends rest

/-- What is begun at a place that takes more is a lexeme, and a longer one if it takes more. -/
theorem scanFrom_of_takes {place : Place} {c : Char} (h : place.Takes c)
    (hblank : Text.isBlank c = false) (rest : List Char) :
    ∃ begun, scanFrom place [] = [begun] ∧ (scanFrom place (c :: rest)).head? ≠ some begun := by
  rcases place with _ | ⟨quote, _ | _, text⟩ | ⟨opened, text⟩
  · cases h
  · refine ⟨.literal (String.ofList text), by simp [scanFrom, splitLiteral], ?_⟩
    simp only [scanFrom, List.head?_cons, ne_eq, Option.some.injEq, literal.injEq]
    exact ofList_append_ne text (splitLiteral_ne_nil quote c rest)
  · refine ⟨.literal (String.ofList text), by simp [scanFrom], ?_⟩
    simp only [scanFrom, List.head?_cons, ne_eq, Option.some.injEq, literal.injEq]
    exact ofList_append_ne text (List.cons_ne_nil _ _)
  · have hends : (opened.isEmpty && endsWord c) = false := by
      simpa [Place.Takes] using h
    refine ⟨.word (String.ofList text), by simp [scanFrom, splitWord], ?_⟩
    simp only [scanFrom, List.head?_cons, ne_eq, Option.some.injEq, word.injEq]
    rw [splitWord_cons, if_neg (by simp [hends]), if_neg (by simp [hblank])]
    exact ofList_append_ne text (List.cons_ne_nil _ _)

namespace Formed

variable {lexeme : Lexeme}

/-- Its text is scanned to the lexeme alone. -/
theorem scan_text (h : lexeme.Formed) : scan lexeme.text.toList = [lexeme] := by
  rw [scan_eq_completed, completed, placeAfter]
  cases lexeme with
  | word text =>
    obtain ⟨inside, hrun⟩ := run_word h
    rw [Lexeme.text, hrun]
    simp [scanFrom, splitWord]
  | literal text =>
    rw [Lexeme.text]
    rcases run_literal h with hrun | ⟨quote, escaped, hrun⟩
    · rw [hrun]
      simp [scanFrom]
    · rw [hrun]
      cases escaped with
      | true => simp [scanFrom]
      | false => simp [scanFrom, splitLiteral]
  | mark c =>
    rw [text, String.toList_singleton, run_mark h]
    simp [scanFrom]

/-- It starts with a character that is not blank, and that ends words unless the lexeme is one. -/
theorem exists_cons (h : lexeme.Formed) :
    ∃ c rest, lexeme.text.toList = c :: rest ∧ Text.isBlank c = false ∧
      (endsWord c = true ↔ lexeme.isWord = false) := by
  cases lexeme with
  | word text =>
    obtain ⟨c, rest, hc, htext⟩ := h
    refine ⟨c, _, htext, ?_, by simp [hc, isWord]⟩
    simp only [endsWord, Bool.or_eq_false_iff] at hc
    exact hc.1.1
  | literal text =>
    obtain ⟨quote, rest, hquote, htext⟩ := h
    refine ⟨quote, _, htext, ?_, by simp [endsWord, hquote, isWord]⟩
    simp only [Line.isQuote, Bool.or_eq_true, beq_iff_eq] at hquote
    rcases hquote with rfl | rfl
    · rfl
    · rfl
  | mark c =>
    have hmark : isMark c = true := h
    exact ⟨c, [], by simp [text], isBlank_of_isMark h, by simp [endsWord, hmark, isWord]⟩

/-- After the lexeme a character would be taken into it, unless the lexeme is closed and the character
ends it if it is a word. -/
theorem takes_iff (h : lexeme.Formed) {c : Char} :
    (placeAfter lexeme.text.toList).Takes c ↔
      ¬(lexeme.Closed ∧ (lexeme.isWord = true → endsWord c = true)) := by
  rw [Closed, placeAfter]
  cases lexeme with
  | word text =>
    obtain ⟨inside, hrun⟩ := run_word h
    rw [Lexeme.text, hrun]
    simp [Place.Takes, Place.Outside, isWord]
  | literal text =>
    rw [Lexeme.text]
    rcases run_literal h with hrun | ⟨quote, escaped, hrun⟩
    · rw [hrun]
      simp [Place.Takes, Place.Outside, isWord]
    · rw [hrun]
      simp [Place.Takes, Place.Outside]
  | mark c =>
    rw [Lexeme.text, String.toList_singleton, run_mark h]
    simp [Place.Takes, Place.Outside, isWord]

/-- A character that is not taken into the lexeme parts it from what follows. -/
theorem scan_text_append (h : lexeme.Formed) (hclosed : lexeme.Closed) {c : Char}
    (hc : lexeme.isWord = true → endsWord c = true) (rest : List Char) :
    scan (lexeme.text.toList ++ c :: rest) = lexeme :: scan (c :: rest) := by
  have htakes : ¬(placeAfter lexeme.text.toList).Takes c :=
    fun htakes => h.takes_iff.1 htakes ⟨hclosed, hc⟩
  rw [scan_append, scanFrom_of_not_takes htakes, ← List.append_assoc, ← scan_eq_completed,
    h.scan_text]
  rfl

/-- With a character taken into it the lexeme is another one. -/
theorem scan_text_append_ne (h : lexeme.Formed) {c : Char} (hblank : Text.isBlank c = false)
    (htakes : ¬(lexeme.Closed ∧ (lexeme.isWord = true → endsWord c = true))) (rest : List Char) :
    (scan (lexeme.text.toList ++ c :: rest)).head? ≠ some lexeme := by
  have hplace := h.takes_iff.2 htakes
  obtain ⟨begun, hbegun, hlonger⟩ := scanFrom_of_takes hplace hblank rest
  have hscan := h.scan_text
  rw [scan_eq_completed, hbegun] at hscan
  obtain ⟨hcompleted, rfl⟩ : completed lexeme.text.toList = [] ∧ begun = lexeme := by
    simpa [List.append_eq_singleton_iff] using hscan
  rw [scan_append, hcompleted]
  exact hlonger

end Formed

theorem closed_mark {c : Char} (h : isMark c = true) : (mark c).Closed := by
  rw [Closed, Lexeme.text, String.toList_singleton, placeAfter, run_mark h]
  trivial

/-- Scanning gives formed lexemes, and every one before another is closed. -/
theorem formed_scan (text : List Char) :
    (∀ lexeme ∈ scan text, lexeme.Formed) ∧ (scan text).IsChain fun left _ => left.Closed := by
  fun_induction scan text with
  | case1 => simp
  | case2 c rest hblank ih => exact ih
  | case3 c rest hblank hmark ih =>
    rw [List.forall_mem_cons, List.isChain_cons]
    exact ⟨⟨hmark, ih.1⟩, fun _ _ => closed_mark hmark, ih.2⟩
  | case4 c rest hblank hmark hquote _ ih =>
    have hslash : c ≠ '\\' := by
      rintro rfl
      exact absurd hquote (by decide)
    rw [List.forall_mem_cons, List.isChain_cons]
    refine ⟨⟨⟨c, rest, hquote, by simp⟩, ih.1⟩, fun next hnext => ?_, ih.2⟩
    -- If a lexeme follows, the literal did not reach the end of the text, so its quote is closed.
    rcases run_splitLiteral hslash [c] rest with hrun | ⟨hend, -⟩
    · rw [Closed, Lexeme.text, String.toList_ofList, placeAfter, Place.run, Place.advance,
        start_of_isQuote hquote]
      dsimp only
      rw [hrun]
      trivial
    · rw [hend, scan_nil] at hnext
      cases hnext
  | case5 c rest hblank hmark hquote _ ih =>
    have hends : endsWord c = false := by simp [endsWord, hblank, hmark, hquote]
    rw [List.forall_mem_cons, List.isChain_cons]
    refine ⟨⟨⟨c, rest, hends, by simp⟩, ih.1⟩, fun next hnext => ?_, ih.2⟩
    obtain ⟨inside, hrun, hinside⟩ := run_splitWord (nest [] c) [c] rest
    have hmore : (splitWord (nest [] c) rest).2 ≠ [] := by
      intro hend
      rw [hend, scan_nil] at hnext
      cases hnext
    rw [Closed, Lexeme.text, String.toList_ofList, placeAfter, Place.run, Place.advance,
      start_of_not_endsWord hends]
    dsimp only
    rw [hrun]
    exact hinside hmore

/-- Lexemes of which only the last may be open are scanned again from their texts with single blanks
between them. -/
theorem scan_intercalate {lexemes : List Lexeme} (hformed : ∀ lexeme ∈ lexemes, lexeme.Formed)
    (hclosed : lexemes.IsChain fun left _ => left.Closed) :
    scan ([' '].intercalate (lexemes.map (·.text.toList))) = lexemes := by
  induction lexemes with
  | nil => exact scan_nil
  | cons lexeme lexemes ih =>
    obtain ⟨hlexeme, hmore⟩ := List.forall_mem_cons.1 hformed
    cases lexemes with
    | nil =>
      rw [List.map_singleton, List.intercalate_singleton]
      exact hlexeme.scan_text
    | cons next lexemes =>
      obtain ⟨hfirst, hchain⟩ := List.isChain_cons_cons.1 hclosed
      have hrest := ih hmore hchain
      rw [List.map_cons] at hrest
      have hblank : Text.isBlank ' ' = true := by decide
      rw [List.map_cons, List.map_cons, List.intercalate_cons_cons, List.append_assoc,
        List.singleton_append, hlexeme.scan_text_append hfirst (fun _ => by decide),
        scan_blank hblank, hrest]

/-- Splitting a word off drops blanks only. -/
theorem filter_splitWord (opened text : List Char) :
    (splitWord opened text).1.filter (!Text.isBlank ·) ++
        (splitWord opened text).2.filter (!Text.isBlank ·) =
      text.filter (!Text.isBlank ·) := by
  induction text generalizing opened with
  | nil => rfl
  | cons c rest ih =>
    rw [splitWord_cons]
    split
    · rfl
    · split
      · next hdropped =>
        rw [Bool.and_eq_true] at hdropped
        rw [ih, List.filter_cons_of_neg (by simp [hdropped.1])]
      · dsimp only
        rw [List.filter_cons, List.filter_cons]
        split
        · rw [List.cons_append, ih]
        · exact ih _

/-- Scanning drops blanks only. -/
theorem filter_scan (text : List Char) :
    ((scan text).flatMap (·.text.toList)).filter (!Text.isBlank ·) =
      text.filter (!Text.isBlank ·) := by
  fun_induction scan text with
  | case1 => rfl
  | case2 c rest hblank ih => rw [ih, List.filter_cons_of_neg (by simp [hblank])]
  | case3 c rest hblank hmark ih =>
    rw [List.flatMap_cons, List.filter_append, ih, Lexeme.text, String.toList_singleton,
      ← List.filter_append, List.singleton_append]
  | case4 c rest hblank hmark hquote _ ih =>
    rw [List.flatMap_cons, List.filter_append, ih, Lexeme.text, String.toList_ofList,
      ← List.filter_append, List.cons_append, splitLiteral_append]
  | case5 c rest hblank hmark hquote _ ih =>
    rw [List.flatMap_cons, List.filter_append, ih, Lexeme.text, String.toList_ofList,
      ← List.singleton_append, List.filter_append, List.append_assoc, filter_splitWord,
      ← List.filter_append, List.singleton_append]

end Lexeme

/-- The tokens of a line hold its characters in their order, blanks aside, and the line made of their
texts with single blanks between them has the same tokens. -/
theorem Line.tokens_joined (line : Line) :
    (line.tokens.flatMap (·.text.toList)).filter (!Text.isBlank ·) =
        line.text.toList.filter (!Text.isBlank ·) ∧
      { line with text := " ".intercalate (line.tokens.map (·.text)) : Line }.tokens =
        line.tokens := by
  obtain ⟨hformed, hclosed⟩ := Lexeme.formed_scan line.text.toList
  have htexts : line.tokens.map (·.text.toList) =
      (Lexeme.scan line.text.toList).map (·.text.toList) := by
    rw [tokens, List.map_map]
    rfl
  constructor
  · rw [List.flatMap_def, htexts, ← List.flatMap_def, Lexeme.filter_scan]
  · have hscan := Lexeme.scan_intercalate hformed hclosed
    rw [← htexts] at hscan
    rw [tokens, String.toList_intercalate, List.map_map]
    exact congrArg _ hscan

end ThriftIdl

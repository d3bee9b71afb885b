import Mathlib.Data.List.Chain
import ThriftIdl.Proofs.Canonical.Text
import ThriftIdl.Proofs.Comments
import ThriftIdl.Proofs.Scanning

/-!
Lines in pieces are scanned to their lexemes. A word keeps whole if scanning it inside any word
leaves the open brackets as they were, and ends if no other word or literal follows. A line that
neither starts nor ends in what cleaning takes away is cleaned to itself.
-/

namespace ThriftIdl.Canonical

open Lexeme (Place scan endsWord nest)

/-- The characters of words: those of values, and those that types need besides. -/
def isWordChar (c : Char) : Bool := isValueChar c || c == '<' || c == '>' || c == ','

/-- The character is not blank and starts neither a literal nor a comment. -/
def isSafe (c : Char) : Bool :=
  !Text.isBlank c && !Line.isQuote c && c != '#' && c != '/' && c != '\n' && c != '\r'

/-- The character goes on with a word wherever the word stands. -/
def isInner (c : Char) : Bool :=
  !endsWord c && c != '<' && c != '[' && c != '>' && c != ']'

theorem toNat_lt_of_isAlphanum {c : Char} (h : c.isAlphanum = true) : c.toNat < 128 := by
  change ((decide ('A'.val ≤ c.val ∧ c.val ≤ 'Z'.val) ||
    (decide ('a'.val ≤ c.val) && decide (c.val ≤ 'z'.val))) ||
      (decide ('0'.val ≤ c.val) && decide (c.val ≤ '9'.val))) = true at h
  simp only [Bool.or_eq_true, Bool.and_eq_true, decide_eq_true_eq, UInt32.le_iff_toNat_le] at h
  rcases h with (⟨_, h⟩ | ⟨_, h⟩) | ⟨_, h⟩
  · exact Nat.lt_of_le_of_lt h (by decide)
  · exact Nat.lt_of_le_of_lt h (by decide)
  · exact Nat.lt_of_le_of_lt h (by decide)

theorem toNat_lt_of_isWordChar {c : Char} (h : isWordChar c = true) : c.toNat < 128 := by
  simp only [isWordChar, isValueChar, Bool.or_eq_true, beq_iff_eq, List.contains_iff_mem] at h
  rcases h with (((h | h) | rfl) | rfl) | rfl
  · exact toNat_lt_of_isAlphanum h
  · have hall : "_.+-".toList.all (·.toNat < 128) = true := by decide
    exact of_decide_eq_true (List.all_eq_true.1 hall c h)
  · decide
  · decide
  · decide

/-- What holds of the ASCII characters of words holds of all characters of words. -/
theorem of_isWordChar (p : Char → Bool) {c : Char} (h : isWordChar c = true)
    (hascii : ∀ n < 128, isWordChar (Char.ofNat n) = true → p (Char.ofNat n) = true) :
    p c = true := by
  have hchar := hascii c.toNat (toNat_lt_of_isWordChar h)
  rw [Char.ofNat_toNat] at hchar
  exact hchar h

theorem isWordChar_of_isValueChar {c : Char} (h : isValueChar c = true) : isWordChar c = true := by
  simp [isWordChar, h]

theorem isSafe_of_isWordChar {c : Char} (h : isWordChar c = true) : isSafe c = true :=
  of_isWordChar isSafe h (by decide +kernel)

theorem isSafe_of_isMark {c : Char} (h : Lexeme.isMark c = true) : isSafe c = true := by
  rw [Lexeme.isMark, List.contains_iff_mem] at h
  have hall : "\x7b\x7d()=:,;".toList.all isSafe = true := by decide
  exact List.all_eq_true.1 hall c h

theorem isBlank_of_isSafe {c : Char} (h : isSafe c = true) : Text.isBlank c = false := by
  simp only [isSafe, Bool.and_eq_true, Bool.not_eq_true'] at h
  exact h.1.1.1.1.1

theorem isInner_of_isValueChar {c : Char} (h : isValueChar c = true) : isInner c = true := by
  have himp : (!isValueChar c || isInner c) = true :=
    of_isWordChar (fun c => !isValueChar c || isInner c) (isWordChar_of_isValueChar h)
      (by decide +kernel)
  simpa [h] using himp

theorem isValueChar_of_isContinue {c : Char} (h : Identifier.isContinue c = true) :
    isValueChar c = true := by
  simp only [Identifier.isContinue, Bool.or_eq_true, beq_iff_eq] at h
  rcases h with ((h | rfl) | rfl) | rfl
  · rw [isValueChar, h, Bool.true_or]
  · decide
  · decide
  · decide

theorem isValueChar_of_spelledBy {name : List Char} (h : Identifier.spelledBy name = true) :
    name ≠ [] ∧ ∀ c ∈ name, isValueChar c = true := by
  cases name with
  | nil => cases h
  | cons c rest =>
    simp only [Identifier.spelledBy, Bool.and_eq_true, List.all_eq_true] at h
    refine ⟨List.cons_ne_nil c rest, ?_⟩
    rw [List.forall_mem_cons]
    refine ⟨?_, fun d hd => isValueChar_of_isContinue (h.2 d hd)⟩
    simp only [Identifier.isStart, Bool.or_eq_true, beq_iff_eq] at h
    rcases h.1 with halpha | rfl
    · simp [isValueChar, Char.isAlphanum, halpha]
    · decide

/-- Scanned inside a word, the text goes on with the word and leaves its open brackets as they
were. -/
def Keeps (opened text : List Char) : Prop :=
  ∀ before, (Place.word opened before).run text = ([], Place.word opened (before ++ text))

theorem Keeps.append {opened left right : List Char} (hleft : Keeps opened left)
    (hright : Keeps opened right) : Keeps opened (left ++ right) := by
  intro before
  rw [Lexeme.run_append, hleft before]
  dsimp only
  rw [hright (before ++ left), List.append_assoc]
  rfl

theorem keeps_nil (opened : List Char) : Keeps opened [] := by
  intro before
  rw [List.append_nil]
  rfl

theorem advance_of_isInner {c : Char} (h : isInner c = true) (opened before : List Char) :
    (Place.word opened before).advance c = ([], Place.word opened (before ++ [c])) := by
  simp only [isInner, endsWord, Bool.and_eq_true, Bool.not_eq_true', bne_iff_ne, ne_eq,
    Bool.or_eq_false_iff] at h
  obtain ⟨⟨⟨⟨⟨⟨hblank, hmark⟩, hquote⟩, hangle⟩, hsquare⟩, hclose⟩, hshut⟩ := h
  have hnest : nest opened c = opened := by
    cases opened with
    | nil => simp [nest, hangle, hsquare]
    | cons top below => simp [nest, hangle, hsquare, hclose, hshut]
  simp [Place.advance, endsWord, hblank, hmark, hquote, hnest]

theorem keeps_of_isInner {text : List Char} (h : ∀ c ∈ text, isInner c = true)
    (opened : List Char) : Keeps opened text := by
  induction text with
  | nil => exact keeps_nil opened
  | cons c rest ih =>
    rw [List.forall_mem_cons] at h
    intro before
    rw [Place.run, advance_of_isInner h.1]
    dsimp only
    rw [ih h.2 (before ++ [c]), List.append_assoc]
    rfl

/-- Inside angle brackets a comma goes on with the word. -/
theorem keeps_comma (opened : List Char) : Keeps ('<' :: opened) [','] := by
  intro before
  rfl

/-- Angle brackets around what keeps them leave the brackets before them as they were. -/
theorem Keeps.bracketed {opened text : List Char} (h : Keeps ('<' :: opened) text) :
    Keeps opened ('<' :: (text ++ ['>'])) := by
  intro before
  have hangle : (Place.word opened before).advance '<' =
      ([], Place.word ('<' :: opened) (before ++ ['<'])) := by
    have hends : endsWord '<' = false := by decide
    simp [Place.advance, hends, Text.isBlank, nest]
  have hclose : (Place.word ('<' :: opened) (before ++ ['<'] ++ text)).run ['>'] =
      ([], Place.word opened (before ++ ['<'] ++ text ++ ['>'])) := by
    simp [Place.run, Place.advance, Text.isBlank, nest]
  rw [Place.run, hangle]
  dsimp only
  rw [Lexeme.run_append, h (before ++ ['<']), hclose]
  simp

/-- A word that is scanned as a whole wherever it stands. -/
structure Whole (text : List Char) : Prop where
  ne_nil : text ≠ []
  chars : ∀ c ∈ text, isWordChar c = true
  head : ∀ c ∈ text.head?, isValueChar c = true
  last : ∀ c ∈ text.getLast?, c ≠ ','
  keeps : ∀ opened, Keeps opened text

/-- A word of value characters keeps whole. -/
theorem whole_of_isValueChar {text : List Char} (hne : text ≠ [])
    (h : ∀ c ∈ text, isValueChar c = true) : Whole text where
  ne_nil := hne
  chars := fun c hc => isWordChar_of_isValueChar (h c hc)
  head := fun c hc => h c (List.mem_of_mem_head? hc)
  last := by
    rintro c hc rfl
    have hcomma := h _ (List.mem_of_mem_getLast? hc)
    revert hcomma
    decide
  keeps := keeps_of_isInner fun c hc => isInner_of_isValueChar (h c hc)

theorem whole_of_spelledBy {name : List Char} (h : Identifier.spelledBy name = true) :
    Whole name :=
  whole_of_isValueChar (isValueChar_of_spelledBy h).1 (isValueChar_of_spelledBy h).2

/-- Wholes with commas between them keep the angle brackets around them. -/
theorem keeps_separated {first : List Char} {more : List (List Char)} (hfirst : Whole first)
    (hmore : ∀ type ∈ more, Whole type) (opened : List Char) :
    Keeps ('<' :: opened) (first ++ more.flatMap (',' :: ·)) := by
  refine (hfirst.keeps _).append ?_
  induction more with
  | nil => exact keeps_nil _
  | cons type more ih =>
    rw [List.forall_mem_cons] at hmore
    rw [List.flatMap_cons]
    exact ((keeps_comma opened).append (hmore.1.keeps _)).append (ih hmore.2)

/-- The text of a type keeps whole. -/
theorem TypeText.whole {text : List Char} (h : TypeText text) : Whole text := by
  induction h with
  | name h => exact whole_of_spelledBy h
  | @applied name first more hname _ _ hfirst hmore =>
    have hwhole := whole_of_spelledBy hname
    have hmoreChars : ∀ c ∈ more.flatMap (',' :: ·), isWordChar c = true := by
      intro c hc
      obtain ⟨type, htype, hc⟩ := List.mem_flatMap.1 hc
      rcases List.mem_cons.1 hc with rfl | hc
      · rfl
      · exact (hmore type htype).chars c hc
    constructor
    · simp
    · simp only [List.forall_mem_append, List.forall_mem_cons]
      exact ⟨hwhole.chars, rfl, hfirst.chars, hmoreChars, rfl, by simp⟩
    · obtain ⟨c, rest, rfl⟩ := List.exists_cons_of_ne_nil hwhole.ne_nil
      exact hwhole.head
    · have hlast : (name ++ '<' :: (first ++ (more.flatMap (',' :: ·) ++ ['>']))).getLast? =
          some '>' := by
        rw [← List.append_assoc first, ← List.cons_append, ← List.append_assoc,
          List.getLast?_concat]
      rintro c hc rfl
      rw [hlast] at hc
      cases hc
    · intro opened
      have hbracketed := (keeps_separated hfirst hmore opened).bracketed
      rw [List.append_assoc] at hbracketed
      exact (hwhole.keeps opened).append hbracketed

theorem IsType.whole {type : String} (h : IsType type) : Whole type.toList := h.1.whole

/-- The text goes on with nothing that a word before it could take in. -/
def EndsWords (rest : List Char) : Prop := ∀ c ∈ rest.head?, endsWord c = true

theorem scan_whole {text : List Char} (h : Whole text) {rest : List Char} (hrest : EndsWords rest) :
    scan (text ++ rest) = .word (String.ofList text) :: scan rest := by
  -- The first character starts a word and the others go on with it, brackets closed at the end.
  have hrun : Place.between.run text = ([], Place.word [] text) := by
    obtain ⟨c, more, rfl⟩ := List.exists_cons_of_ne_nil h.ne_nil
    have hinner : isInner c = true := isInner_of_isValueChar (h.head c rfl)
    have hkeeps := h.keeps [] []
    rw [Place.run, advance_of_isInner hinner] at hkeeps
    have hstart : Place.between.advance c = ([], Place.word [] [c]) := by
      simp only [isInner, endsWord, Bool.and_eq_true, Bool.not_eq_true', bne_iff_ne, ne_eq,
        Bool.or_eq_false_iff] at hinner
      simp [Place.advance, Place.start, nest, hinner]
    rw [Place.run, hstart]
    exact hkeeps
  have halone : scan text = [.word (String.ofList text)] := by
    rw [Lexeme.scan_eq_completed, Lexeme.completed, Lexeme.placeAfter, hrun]
    simp [Lexeme.scanFrom, Lexeme.splitWord]
  cases rest with
  | nil => rw [List.append_nil, halone, Lexeme.scan_nil]
  | cons c rest =>
    have houtside : (Lexeme.placeAfter text).Outside := by
      rw [Lexeme.placeAfter, hrun]
      rfl
    rw [Lexeme.scan_append_of_outside houtside (hrest c rfl), halone]
    rfl

theorem splitLiteral_plain {inner : List Char} (h : ∀ c ∈ inner, isPlain c = true)
    (rest : List Char) :
    Lexeme.splitLiteral '"' (inner ++ '"' :: rest) = (inner ++ ['"'], rest) := by
  induction inner with
  | nil =>
    rw [List.nil_append, Lexeme.splitLiteral_cons (by decide), if_pos rfl]
    rfl
  | cons c inner ih =>
    rw [List.forall_mem_cons] at h
    simp only [isPlain, Bool.and_eq_true, bne_iff_ne, ne_eq] at h
    rw [List.cons_append, Lexeme.splitLiteral_cons h.1.1.2, if_neg h.1.1.1, ih]
    · rfl
    · simpa [isPlain] using h.2

theorem scan_plain {inner : List Char} (h : ∀ c ∈ inner, isPlain c = true) (rest : List Char) :
    scan ('"' :: (inner ++ '"' :: rest)) =
      .literal (String.ofList ('"' :: (inner ++ ['"']))) :: scan rest := by
  rw [scan, if_neg (by decide), if_neg (by decide), if_pos (by decide), splitLiteral_plain h]

namespace Piece

/-- The piece is what scanning makes of its characters. -/
def Fits : Piece → Prop
  | lexeme (.word text) => Whole text.toList
  | lexeme (.literal text) =>
    ∃ inner, text.toList = '"' :: (inner ++ ['"']) ∧ ∀ c ∈ inner, isPlain c = true
  | lexeme (.mark c) => Lexeme.isMark c = true
  | gap => True

/-- The piece may stand right before the other one. -/
def before : Piece → Piece → Bool
  | lexeme (.word _), lexeme (.word _) => false
  | lexeme (.word _), lexeme (.literal _) => false
  | _, _ => true

/-- A line may end in the piece. -/
def ends : Piece → Bool
  | lexeme (.mark c) => !Line.isSeparator c
  | lexeme _ => true
  | gap => false

end Piece

/-- Pieces that are scanned to their lexemes. -/
structure Sound (line : List Piece) : Prop where
  fits : ∀ piece ∈ line, piece.Fits
  parted : line.IsChain fun left right => left.before right = true

/-- A line that is scanned to its lexemes and from which cleaning takes nothing. -/
structure Tidy (line : List Piece) : Prop extends Sound line where
  ne_nil : line ≠ []
  head : ∀ piece ∈ line.head?, piece.lexeme?.isSome = true
  last : ∀ piece ∈ line.getLast?, piece.ends = true

theorem Sound.append {left right : List Piece} (hleft : Sound left) (hright : Sound right)
    (h : ∀ piece ∈ left.getLast?, ∀ next ∈ right.head?, piece.before next = true) :
    Sound (left ++ right) where
  fits := List.forall_mem_append.2 ⟨hleft.fits, hright.fits⟩
  parted := List.isChain_append.2 ⟨hleft.parted, hright.parted, h⟩

/-- The characters after a word end it if the piece after it may stand there. -/
theorem endsWords_lineText {text : String} {line : List Piece}
    (hfits : ∀ piece ∈ line, piece.Fits)
    (hparted : (Piece.lexeme (.word text) :: line).IsChain
      fun left right => left.before right = true) : EndsWords (lineText line) := by
  cases line with
  | nil => simp [lineText, EndsWords]
  | cons piece line =>
    have hbefore := (List.isChain_cons_cons.1 hparted).1
    have hpiece := hfits piece List.mem_cons_self
    rcases piece with ⟨_ | _ | c⟩ | _
    · cases hbefore
    · cases hbefore
    · have hmark : Lexeme.isMark c = true := hpiece
      intro d hd
      obtain rfl : d = c := by simpa [lineText, Piece.text, Lexeme.text] using hd.symm
      simp [endsWord, hmark]
    · intro d hd
      obtain rfl : d = ' ' := by simpa [lineText, Piece.text] using hd.symm
      decide

/-- A line in pieces is scanned to its lexemes. -/
theorem scan_lineText {line : List Piece} (h : Sound line) :
    scan (lineText line) = lexemesOf line := by
  induction line with
  | nil => exact Lexeme.scan_nil
  | cons piece line ih =>
    obtain ⟨hpiece, hmore⟩ := List.forall_mem_cons.1 h.fits
    have hline := ih ⟨hmore, h.parted.tail⟩
    rw [lineText, List.flatMap_cons, ← lineText]
    rcases piece with ⟨text | text | c⟩ | _
    · have hwhole : Whole text.toList := hpiece
      have hscan := scan_whole hwhole (endsWords_lineText hmore h.parted)
      rw [String.ofList_toList, hline] at hscan
      exact hscan
    · obtain ⟨inner, htext, hinner⟩ := hpiece
      have hscan := scan_plain hinner (lineText line)
      rw [← htext, String.ofList_toList, hline] at hscan
      rw [Piece.text, Lexeme.text, htext, List.cons_append, List.append_assoc]
      exact hscan
    · have hmark : Lexeme.isMark c = true := hpiece
      have hblank : Text.isBlank c = false := isBlank_of_isSafe (isSafe_of_isMark hmark)
      have hscan : scan (c :: lineText line) = .mark c :: scan (lineText line) := by
        rw [scan, if_neg (by simp [hblank]), if_pos hmark]
      rw [hline] at hscan
      rw [Piece.text, Lexeme.text, String.toList_singleton]
      exact hscan
    · have hscan : scan (' ' :: lineText line) = scan (lineText line) :=
        Lexeme.scan_blank (by decide) _
      rw [hline] at hscan
      exact hscan

/-- Characters that are safe hold no comment and open no literal. -/
theorem uncomment_safe {text : List Char} (h : ∀ c ∈ text, isSafe c = true) (rest : List Char) :
    Line.uncomment none (text ++ rest) = text ++ Line.uncomment none rest := by
  apply Line.uncomment_bare
  intro c hc
  have hsafe := h c hc
  simp only [isSafe, Bool.and_eq_true, Bool.not_eq_true', bne_iff_ne, ne_eq] at hsafe
  obtain ⟨⟨⟨⟨⟨-, hquote⟩, hhash⟩, hslash⟩, -⟩, -⟩ := hsafe
  exact ⟨hhash, hslash, hquote⟩

theorem uncomment_inner {inner : List Char} (h : ∀ c ∈ inner, isPlain c = true)
    (rest : List Char) :
    Line.uncomment (some '"') (inner ++ '"' :: rest) =
      inner ++ '"' :: Line.uncomment none rest := by
  induction inner with
  | nil => rw [List.nil_append, List.nil_append, Line.uncomment_some_cons (by decide), if_pos rfl]
  | cons c inner ih =>
    rw [List.forall_mem_cons] at h
    have hplain := h.1
    simp only [isPlain, Bool.and_eq_true, bne_iff_ne, ne_eq] at hplain
    rw [List.cons_append, Line.uncomment_some_cons hplain.1.2, if_neg hplain.1.1, ih h.2]
    rfl

/-- A literal in double quotes holds no comment. -/
theorem uncomment_literal {inner : List Char} (h : ∀ c ∈ inner, isPlain c = true)
    (rest : List Char) :
    Line.uncomment none ('"' :: (inner ++ '"' :: rest)) =
      '"' :: (inner ++ '"' :: Line.uncomment none rest) := by
  rw [Line.uncomment_none_cons (by decide) (by simp), if_pos (by decide), uncomment_inner h]

theorem uncomment_lineText {line : List Piece} (hfits : ∀ piece ∈ line, piece.Fits) :
    Line.uncomment none (lineText line) = lineText line := by
  induction line with
  | nil => rfl
  | cons piece line ih =>
    rw [List.forall_mem_cons] at hfits
    have hline := ih hfits.2
    rw [lineText, List.flatMap_cons, ← lineText]
    rcases piece with ⟨text | text | c⟩ | _
    · have hwhole : Whole text.toList := hfits.1
      have hsafe := uncomment_safe (fun c hc => isSafe_of_isWordChar (hwhole.chars c hc))
        (lineText line)
      rw [hline] at hsafe
      exact hsafe
    · obtain ⟨inner, htext, hinner⟩ := hfits.1
      have hliteral := uncomment_literal hinner (lineText line)
      rw [hline] at hliteral
      rw [Piece.text, Lexeme.text, htext, List.cons_append, List.append_assoc]
      exact hliteral
    · have hmark : Lexeme.isMark c = true := hfits.1
      have hsafe := @uncomment_safe [c] (by simpa using isSafe_of_isMark hmark) (lineText line)
      rw [hline] at hsafe
      rw [Piece.text, Lexeme.text, String.toList_singleton]
      exact hsafe
    · have hgap := @Line.uncomment_bare [' '] (by simp [Line.isQuote]) (lineText line)
      rw [hline] at hgap
      exact hgap

/-- A line may end in the character and nothing is taken from it. -/
def isFinal (c : Char) : Bool := !Text.isBlank c && !Line.isSeparator c && c != '\r'

theorem isFinal_of_isWordChar {c : Char} (h : isWordChar c = true) (hcomma : c ≠ ',') :
    isFinal c = true := by
  have himp : (c == ',' || isFinal c) = true :=
    of_isWordChar (fun c => c == ',' || isFinal c) h (by decide +kernel)
  simpa [hcomma] using himp

namespace Piece

theorem exists_getLast? {piece : Piece} (hfits : piece.Fits) (hends : piece.ends = true) :
    ∃ c, piece.text.getLast? = some c ∧ isFinal c = true := by
  rcases piece with ⟨text | text | c⟩ | _
  · have hwhole : Whole text.toList := hfits
    obtain ⟨c, hlast⟩ := Option.isSome_iff_exists.1 (List.getLast?_isSome.2 hwhole.ne_nil)
    exact ⟨c, hlast, isFinal_of_isWordChar (hwhole.chars c (List.mem_of_mem_getLast? hlast))
      (hwhole.last c hlast)⟩
  · obtain ⟨inner, htext, -⟩ := hfits
    refine ⟨'"', ?_, by decide⟩
    rw [Piece.text, Lexeme.text, htext, ← List.cons_append, List.getLast?_concat]
  · have hmark : Lexeme.isMark c = true := hfits
    have hseparator : Line.isSeparator c = false := by simpa [ends] using hends
    refine ⟨c, by simp [Piece.text, Lexeme.text], ?_⟩
    have hsafe := isSafe_of_isMark hmark
    simp only [isSafe, Bool.and_eq_true, Bool.not_eq_true', bne_iff_ne, ne_eq] at hsafe
    simp [isFinal, hsafe, hseparator]
  · cases hends

theorem exists_head? {piece : Piece} (hfits : piece.Fits) (hlexeme : piece.lexeme?.isSome = true) :
    ∃ c, piece.text.head? = some c ∧ Text.isBlank c = false := by
  rcases piece with ⟨text | text | c⟩ | _
  · have hwhole : Whole text.toList := hfits
    obtain ⟨c, rest, htext⟩ := List.exists_cons_of_ne_nil hwhole.ne_nil
    have hc : c ∈ text.toList := by
      rw [htext]
      exact List.mem_cons_self
    refine ⟨c, ?_, isBlank_of_isSafe (isSafe_of_isWordChar (hwhole.chars c hc))⟩
    rw [Piece.text, Lexeme.text, htext]
    rfl
  · obtain ⟨inner, htext, -⟩ := hfits
    refine ⟨'"', ?_, by decide⟩
    rw [Piece.text, Lexeme.text, htext]
    rfl
  · have hmark : Lexeme.isMark c = true := hfits
    exact ⟨c, by simp [Piece.text, Lexeme.text], isBlank_of_isSafe (isSafe_of_isMark hmark)⟩
  · cases hlexeme

end Piece

theorem Tidy.exists_getLast? {line : List Piece} (h : Tidy line) :
    ∃ c, (lineText line).getLast? = some c ∧ isFinal c = true := by
  obtain ⟨piece, hpiece⟩ := Option.isSome_iff_exists.1 (List.getLast?_isSome.2 h.ne_nil)
  obtain ⟨c, hc, hfinal⟩ := Piece.exists_getLast? (h.fits piece (List.mem_of_mem_getLast? hpiece))
    (h.last piece hpiece)
  refine ⟨c, ?_, hfinal⟩
  obtain ⟨before, rfl⟩ := List.getLast?_eq_some_iff.1 hpiece
  rw [lineText, List.flatMap_append, List.flatMap_singleton, List.getLast?_append, hc]
  rfl

theorem Tidy.exists_head? {line : List Piece} (h : Tidy line) :
    ∃ c, (lineText line).head? = some c ∧ Text.isBlank c = false := by
  obtain ⟨piece, rest, rfl⟩ := List.exists_cons_of_ne_nil h.ne_nil
  obtain ⟨c, hc, hblank⟩ := Piece.exists_head? (h.fits piece List.mem_cons_self) (h.head piece rfl)
  refine ⟨c, ?_, hblank⟩
  rw [lineText, List.flatMap_cons, List.head?_append, hc]
  rfl

/-- Cleaning takes nothing from a tidy line. -/
theorem clean_lineText {line : List Piece} (h : Tidy line) :
    Line.clean (lineText line) = lineText line := by
  obtain ⟨first, hfirst, hblank⟩ := h.exists_head?
  obtain ⟨last, hlast, hfinal⟩ := h.exists_getLast?
  simp only [isFinal, Bool.and_eq_true, Bool.not_eq_true'] at hfinal
  refine Line.clean_eq_self_iff.2 ⟨uncomment_lineText h.fits, ?_, ?_⟩
  · intro c hc
    rw [hfirst] at hc
    cases hc
    exact hblank
  · intro c hc
    rw [hlast] at hc
    cases hc
    exact hfinal.1

theorem ne_feed_of_isSafe {c : Char} (h : isSafe c = true) : c ≠ '\n' := by
  simp only [isSafe, Bool.and_eq_true, bne_iff_ne] at h
  exact h.1.2

theorem Piece.Fits.ne_feed {piece : Piece} (h : piece.Fits) : ∀ c ∈ piece.text, c ≠ '\n' := by
  rcases piece with ⟨text | text | c⟩ | _
  · have hwhole : Whole text.toList := h
    exact fun c hc => ne_feed_of_isSafe (isSafe_of_isWordChar (hwhole.chars c hc))
  · obtain ⟨inner, htext, hinner⟩ := h
    rw [Piece.text, Lexeme.text, htext]
    simp only [List.forall_mem_cons, List.forall_mem_append]
    refine ⟨by decide, ?_, by decide, by simp⟩
    intro c hc
    have hplain := hinner c hc
    simp only [isPlain, Bool.and_eq_true, bne_iff_ne] at hplain
    exact hplain.2
  · have hmark : Lexeme.isMark c = true := h
    rw [Piece.text, Lexeme.text, String.toList_singleton, List.forall_mem_singleton]
    exact ne_feed_of_isSafe (isSafe_of_isMark hmark)
  · simp [Piece.text]

/-- A line without line feed that does not end in a carriage return is the first of the lines of a
text that it ends in a line feed. -/
theorem lines_append {line : List Char} (hfeed : ∀ c ∈ line, c ≠ '\n')
    (hlast : line.getLast? ≠ some '\r') (rest : List Char) :
    Text.lines (line ++ '\n' :: rest) = line :: Text.lines rest := by
  induction line with
  | nil => rw [List.nil_append, Text.lines]
  | cons c line ih =>
    rw [List.forall_mem_cons] at hfeed
    have hmore : Text.lines (line ++ '\n' :: rest) = line :: Text.lines rest := by
      apply ih hfeed.2
      intro hreturn
      apply hlast
      rw [List.getLast?_cons, hreturn]
      rfl
    rw [List.cons_append, Text.lines, hmore]
    · exact hfeed.1
    · intro more hreturn hline
      cases line with
      | nil =>
        apply hlast
        rw [hreturn]
        rfl
      | cons d line =>
        cases hline
        exact hfeed.2 '\n' List.mem_cons_self rfl

/-- The lines of the text that tidy lines make up are those lines. -/
theorem lines_lineText {lines : List (List Piece)} (h : ∀ line ∈ lines, Tidy line) :
    Text.lines (lines.flatMap fun line => lineText line ++ ['\n']) = lines.map lineText := by
  induction lines with
  | nil => rfl
  | cons line lines ih =>
    rw [List.forall_mem_cons] at h
    have hfeed : ∀ c ∈ lineText line, c ≠ '\n' := by
      intro c hc
      obtain ⟨piece, hpiece, hc⟩ := List.mem_flatMap.1 hc
      exact (h.1.fits piece hpiece).ne_feed c hc
    have hlast : (lineText line).getLast? ≠ some '\r' := by
      obtain ⟨c, hc, hfinal⟩ := h.1.exists_getLast?
      rw [hc]
      rintro heq
      cases heq
      revert hfinal
      decide
    rw [List.flatMap_cons, List.append_assoc, List.map_cons, ← ih h.2]
    exact lines_append hfeed hlast _

/-- The line of a document that a line in pieces becomes, under a number. -/
def lineAt (number : Nat) (line : List Piece) : Line := ⟨number, String.ofList (lineText line)⟩

/-- The tokens of a line in pieces, under a number. -/
def tokensAt (number : Nat) (line : List Piece) : List Token := (lexemesOf line).map (⟨·, number⟩)

theorem Tidy.ofRaw? {line : List Piece} (h : Tidy line) (number : Nat) :
    Line.ofRaw? number (String.ofList (lineText line)) = some (lineAt number line) := by
  obtain ⟨c, hc, -⟩ := h.exists_head?
  have hne : lineText line ≠ [] := by
    intro hnil
    rw [hnil] at hc
    cases hc
  rw [Line.ofRaw?_eq_some_iff, lineAt, String.toList_ofList, clean_lineText h]
  exact ⟨rfl, rfl, hne⟩

theorem Tidy.tokens {line : List Piece} (h : Tidy line) (number : Nat) :
    (lineAt number line).tokens = tokensAt number line := by
  rw [Line.tokens, lineAt, String.toList_ofList, scan_lineText h.toSound]
  rfl

end ThriftIdl.Canonical

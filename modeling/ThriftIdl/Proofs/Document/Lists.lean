import ThriftIdl.Proofs.Canonical.Scanning
import ThriftIdl.Proofs.Document.Reading
import ThriftIdl.Proofs.Header
import ThriftIdl.Proofs.Joining
import ThriftIdl.Proofs.Rescanning
import ThriftIdl.Proofs.Text

/-!
Constants whose value is a list of strings. In scanning a list in square brackets is a word, and
brackets count in its strings as they do outside them. So the word may end in a string, and a blank
in a string may be dropped.
-/

namespace ThriftIdl

namespace Lexeme

variable {p : List Char → Char → Prop} {opened : List Char}

/-- Somewhere in the text the brackets open there and the character are as `p` says. -/
def Meets (p : List Char → Char → Prop) (opened text : List Char) : Prop :=
  ∃ before c after, text = before ++ c :: after ∧ p (before.foldl nest opened) c

/-- A word ends before the character: no bracket is open, and the character ends words. -/
def Stops (opened : List Char) (c : Char) : Prop := opened = [] ∧ endsWord c = true

/-- A word drops the character: a blank directly inside angle brackets. -/
def Drops (opened : List Char) (c : Char) : Prop := Text.isBlank c = true ∧ opened.head? = some '<'

theorem not_meets_nil (p : List Char → Char → Prop) (opened : List Char) : ¬Meets p opened [] := by
  rintro ⟨before, c, after, htext, -⟩
  simp at htext

theorem meets_cons {c : Char} {rest : List Char} :
    Meets p opened (c :: rest) ↔ p opened c ∨ Meets p (nest opened c) rest := by
  constructor
  · rintro ⟨before, d, after, htext, hp⟩
    cases before with
    | nil =>
      cases htext
      exact .inl hp
    | cons first before =>
      cases htext
      exact .inr ⟨before, d, after, rfl, hp⟩
  · rintro (hp | ⟨before, d, after, rfl, hp⟩)
    · exact ⟨[], c, rest, rfl, hp⟩
    · exact ⟨c :: before, d, after, rfl, hp⟩

/-- A word goes on to the end of the text exactly if it stops nowhere. -/
theorem splitWord_snd_eq_nil_iff (opened text : List Char) :
    (splitWord opened text).2 = [] ↔ ¬Meets Stops opened text := by
  induction text generalizing opened with
  | nil => exact iff_of_true rfl (not_meets_nil Stops opened)
  | cons c rest ih =>
    rw [splitWord_cons, meets_cons, not_or]
    by_cases hstops : (opened.isEmpty && endsWord c) = true
    · rw [if_pos hstops]
      rw [Bool.and_eq_true, List.isEmpty_iff] at hstops
      exact iff_of_false (List.cons_ne_nil c rest) fun h => h.1 hstops
    · rw [if_neg hstops]
      rw [Bool.and_eq_true, List.isEmpty_iff] at hstops
      rw [Stops, and_iff_right hstops, ← ih]
      split
      · rfl
      · rfl

theorem splitWord_fst_sublist (opened text : List Char) :
    (splitWord opened text).1.Sublist text := by
  induction text generalizing opened with
  | nil => exact List.Sublist.slnil
  | cons c rest ih =>
    rw [splitWord_cons]
    split
    · exact List.nil_sublist _
    · split
      · exact (ih _).cons c
      · exact (ih _).cons_cons c

/-- A word that stops nowhere is the whole text exactly if it drops nothing. -/
theorem splitWord_fst_eq_self_iff {text : List Char} (h : ¬Meets Stops opened text) :
    (splitWord opened text).1 = text ↔ ¬Meets Drops opened text := by
  induction text generalizing opened with
  | nil => exact iff_of_true rfl (not_meets_nil Drops opened)
  | cons c rest ih =>
    rw [meets_cons, not_or] at h
    have hstops : ¬(opened.isEmpty && endsWord c) = true := by
      rw [Bool.and_eq_true, List.isEmpty_iff]
      exact h.1
    rw [splitWord_cons, if_neg hstops, meets_cons, not_or]
    by_cases hdrops : (Text.isBlank c && opened.head? == some '<') = true
    · rw [if_pos hdrops]
      rw [Bool.and_eq_true, beq_iff_eq] at hdrops
      refine iff_of_false (fun hwhole => ?_) fun hnot => hnot.1 hdrops
      -- Without the blank the word is shorter than the text.
      have hlength := (splitWord_fst_sublist (nest opened c) rest).length_le
      rw [hwhole, List.length_cons] at hlength
      omega
    · rw [if_neg hdrops]
      rw [Bool.and_eq_true, beq_iff_eq] at hdrops
      rw [List.cons_inj_right, ih h.2, Drops, and_iff_right hdrops]

/-- Some brackets are open, all of them square. -/
def Square (opened : List Char) : Prop := opened ≠ [] ∧ ∀ c ∈ opened, c = '['

theorem square_nest (hopened : Square opened) {c : Char} (hc : c ≠ '<' ∧ c ≠ ']') :
    Square (nest opened c) := by
  obtain ⟨hne, hall⟩ := hopened
  obtain ⟨top, below, rfl⟩ := List.exists_cons_of_ne_nil hne
  obtain rfl := hall top List.mem_cons_self
  by_cases hopens : c = '['
  · rw [nest, if_pos (.inr hopens), hopens]
    exact ⟨List.cons_ne_nil _ _, List.forall_mem_cons.2 ⟨rfl, hall⟩⟩
  · have hkept : nest ('[' :: below) c = '[' :: below := by simp [nest, hopens, hc]
    rw [hkept]
    exact ⟨hne, hall⟩

/-- In square brackets around a text without angle brackets that open and square ones that close, only
square brackets are open. -/
theorem not_meets_of_square (hp : ∀ opened c, Square opened → ¬p opened c) {text : List Char}
    (h : ∀ c ∈ text, c ≠ '<' ∧ c ≠ ']') (hopened : Square opened) :
    ¬Meets p opened (text ++ [']']) := by
  induction text generalizing opened with
  | nil =>
    rw [List.nil_append, meets_cons, not_or]
    exact ⟨hp opened ']' hopened, not_meets_nil p _⟩
  | cons c text ih =>
    rw [List.forall_mem_cons] at h
    rw [List.cons_append, meets_cons, not_or]
    exact ⟨hp opened c hopened, ih h.2 (square_nest hopened h.1)⟩

theorem not_stops_of_square (opened : List Char) (c : Char) (h : Square opened) :
    ¬Stops opened c :=
  fun hstops => h.1 hstops.1

theorem not_drops_of_square (opened : List Char) (c : Char) (h : Square opened) :
    ¬Drops opened c := by
  rintro ⟨-, hhead⟩
  have hangle := h.2 '<' (List.mem_of_mem_head? hhead)
  cases hangle

end Lexeme

/-- The text of a list of strings: the strings in quotes, with commas between them, in square
brackets. -/
def listText (strings : List String) : String :=
  "[" ++ ", ".intercalate (strings.map fun string => "\"" ++ string ++ "\"") ++ "]"

/-- The text of a constant with a list of strings. -/
def listSource (strings : List String) : String := "const list<string> L = " ++ listText strings

/-- The strings in quotes, with commas between them. -/
def listItems (strings : List String) : List Char :=
  [',', ' '].intercalate (strings.map fun string => '"' :: (string.toList ++ ['"']))

theorem toList_listText (strings : List String) :
    (listText strings).toList = '[' :: (listItems strings ++ [']']) := by
  simp [listText, listItems, String.toList_intercalate, Function.comp_def]

theorem listItems_singleton (string : String) :
    listItems [string] = '"' :: (string.toList ++ ['"']) := by
  rw [listItems, List.map_singleton, List.intercalate_singleton]

theorem listItems_cons_cons (string next : String) (strings : List String) :
    listItems (string :: next :: strings) =
      '"' :: (string.toList ++ '"' :: ',' :: ' ' :: listItems (next :: strings)) := by
  rw [listItems, List.map_cons, List.map_cons, List.intercalate_cons_cons, listItems, List.map_cons]
  simp

/-- What holds of the strings' characters and of the marks between the strings holds of the items. -/
theorem forall_mem_listItems {P : Char → Prop} {strings : List String} (hcomma : P ',')
    (hblank : P ' ') (hquote : P '"')
    (h : ∀ string ∈ strings, ∀ c ∈ string.toList, P c) : ∀ c ∈ listItems strings, P c := by
  induction strings with
  | nil => exact fun c hc => absurd hc List.not_mem_nil
  | cons string strings ih =>
    rw [List.forall_mem_cons] at h
    cases strings with
    | nil =>
      rw [listItems_singleton, List.forall_mem_cons, List.forall_mem_append,
        List.forall_mem_singleton]
      exact ⟨hquote, h.1, hquote⟩
    | cons next strings =>
      rw [listItems_cons_cons]
      simp only [List.forall_mem_cons, List.forall_mem_append]
      exact ⟨hquote, h.1, hquote, hcomma, hblank, ih h.2⟩

/-- The strings hold no double quote, no backslash and no line feed. -/
def PlainStrings (strings : List String) : Prop :=
  ∀ string ∈ strings, ∀ c ∈ string.toList, Canonical.isPlain c = true

variable {strings : List String}

theorem uncomment_listItems (h : PlainStrings strings) (rest : List Char) :
    Line.uncomment none (listItems strings ++ rest) =
      listItems strings ++ Line.uncomment none rest := by
  have hbare : ∀ rest, Line.uncomment none (',' :: ' ' :: rest) =
      ',' :: ' ' :: Line.uncomment none rest := @Line.uncomment_bare [',', ' '] (by simp [Line.isQuote])
  induction strings with
  | nil => rfl
  | cons string strings ih =>
    rw [PlainStrings, List.forall_mem_cons] at h
    cases strings with
    | nil =>
      rw [listItems_singleton]
      have hliteral := Canonical.uncomment_literal h.1 rest
      simpa using hliteral
    | cons next strings =>
      rw [listItems_cons_cons]
      have hliteral := Canonical.uncomment_literal h.1
        (',' :: ' ' :: (listItems (next :: strings) ++ rest))
      rw [hbare, ih h.2] at hliteral
      simpa using hliteral

theorem toList_listSource (strings : List String) :
    (listSource strings).toList =
      "const list<string> L =".toList ++ ' ' :: '[' :: (listItems strings ++ [']']) := by
  unfold listSource
  rw [String.toList_append, toList_listText]
  simp

/-- The line feeds of the text would stand in the strings. -/
theorem ne_feed_of_mem_listSource (h : PlainStrings strings) :
    ∀ c ∈ (listSource strings).toList, c ≠ '\n' := by
  have hitems : ∀ c ∈ listItems strings, c ≠ '\n' := by
    refine @forall_mem_listItems (· ≠ '\n') strings (by decide) (by decide) (by decide) ?_
    intro string hstring c hc
    have hplain := h string hstring c hc
    simp only [Canonical.isPlain, Bool.and_eq_true, bne_iff_ne] at hplain
    exact hplain.2
  rw [toList_listSource]
  simp only [List.forall_mem_append, List.forall_mem_cons]
  exact ⟨by simp, by decide, by decide, hitems, by decide, by simp⟩

theorem linesOf_listSource (h : PlainStrings strings) :
    Text.linesOf (listSource strings) = [listSource strings] := by
  have hne : (listSource strings).toList ≠ [] := by
    rw [toList_listSource]
    exact List.append_ne_nil_of_right_ne_nil _ (List.cons_ne_nil _ _)
  rw [Text.linesOf, Text.lines_eq_singleton hne (ne_feed_of_mem_listSource h), List.map_singleton,
    String.ofList_toList]

/-- Cleaning takes nothing from the line. -/
theorem clean_listSource (h : PlainStrings strings) :
    Line.clean (listSource strings).toList = (listSource strings).toList := by
  have hclose : Line.uncomment none [']'] = [']'] := by decide
  have hopen := @Line.uncomment_bare "const list<string> L = [".toList (by simp [Line.isQuote])
    (listItems strings ++ [']'])
  rw [uncomment_listItems h, hclose] at hopen
  have htext : (listSource strings).toList =
      "const list<string> L = [".toList ++ (listItems strings ++ [']']) := by
    rw [toList_listSource]
    simp
  have hhead : (listSource strings).toList.head? = some 'c' := by
    rw [htext]
    simp
  have hlast : (listSource strings).toList.getLast? = some ']' := by
    rw [htext, ← List.append_assoc, List.getLast?_concat]
  refine Line.clean_eq_self_iff.2 ⟨by rw [htext, hopen], ?_, ?_⟩
  · intro c hc
    cases hhead.symm.trans hc
    decide
  · intro c hc
    cases hlast.symm.trans hc
    decide

open Lexeme (scan splitWord placeAfter Meets Stops Drops)

/-- The line is scanned up to its list, which is a word. -/
theorem scan_listSource (strings : List String) :
    scan (listSource strings).toList =
      [.word "const", .word "list<string>", .word "L", .mark '=',
        .word (String.ofList ('[' :: (splitWord ['['] (listItems strings ++ [']'])).1))] ++
      scan (splitWord ['['] (listItems strings ++ [']'])).2 := by
  have hplace : placeAfter "const list<string> L =".toList = .between := rfl
  have hopening : scan "const list<string> L =".toList =
      [.word "const", .word "list<string>", .word "L", .mark '='] := by
    rw [Lexeme.scan_eq_completed, hplace, Lexeme.scanFrom, Lexeme.scan_nil, List.append_nil]
    decide +kernel
  have houtside : (placeAfter "const list<string> L =".toList).Outside := by
    rw [hplace]
    trivial
  have hlist : scan ('[' :: (listItems strings ++ [']'])) =
      .word (String.ofList ('[' :: (splitWord ['['] (listItems strings ++ [']'])).1)) ::
        scan (splitWord ['['] (listItems strings ++ [']'])).2 := by
    rw [scan, if_neg (by decide), if_neg (by decide), if_neg (by decide)]
    rfl
  rw [toList_listSource, Lexeme.scan_append_of_outside houtside (by decide),
    Lexeme.scan_blank (by decide), hopening, hlist]
  rfl

/-- What is left after the word is not blank: it ends as the list does. -/
theorem scan_splitWord_snd_eq_nil_iff {opened text : List Char} :
    scan (splitWord opened (text ++ [']'])).2 = [] ↔ (splitWord opened (text ++ [']'])).2 = [] := by
  constructor
  · intro hscan
    by_contra hne
    obtain ⟨before, hsuffix⟩ := Lexeme.splitWord_suffix opened (text ++ [']'])
    have hlast : (splitWord opened (text ++ [']'])).2.getLast? = some ']' := by
      rw [← List.getLast?_append_of_ne_nil before hne, hsuffix, List.getLast?_concat]
    have hblank := Lexeme.isBlank_of_scan hscan ']' (List.mem_of_mem_getLast? hlast)
    revert hblank
    decide
  · intro hnil
    rw [hnil, Lexeme.scan_nil]

namespace Document

/-- A document of one line that starts a definition has an empty header. -/
theorem header_ofSource_of_line {source : String} {kind : Kind} {more : List Lexeme} (name : String)
    (hlines : Text.linesOf source = [source]) (hclean : Line.clean source.toList = source.toList)
    (hscan : scan source.toList = .word kind.word :: more) :
    (ofSource name source).header = ⟨(ofSource name source).namespaces, [], [⟨0, source⟩]⟩ := by
  have hne : Line.clean source.toList ≠ [] := by
    intro hnil
    rw [← hclean, hnil, Lexeme.scan_nil] at hscan
    cases hscan
  have hline : Line.ofRaw? 0 source = some ⟨0, source⟩ :=
    Line.ofRaw?_eq_some_iff.2 ⟨rfl, hclean.symm, hne⟩
  have hstart : ∀ c ∈ source.toList.head?, Text.isBlank c = false := by
    rw [← hclean]
    exact Line.isBlank_of_head?_clean
  have heffect := Header.effect?_of_scan hstart hscan
  rw [String.ofList_toList] at heffect
  simp only [header, ofSource, hlines, Line.meaningful, Line.meaningfulFrom, hline, Option.toList_some,
    List.append_nil, Header.read, heffect]

/-- The constant is read unless the word that its list starts with ends before the line does. -/
theorem readDefinitions_listSource (name : String) (h : PlainStrings strings) :
    (ofSource name (listSource strings)).readDefinitions =
      if (splitWord ['['] (listItems strings ++ [']'])).2 = [] then
        .ok [⟨⟨"L", 0⟩, .const "list<string>"
          (String.ofList ('[' :: (splitWord ['['] (listItems strings ++ [']'])).1))⟩]
      else .error ⟨0, .shape (.definition .const) (.opening .const)⟩ := by
  have hscan := scan_listSource strings
  have hheader := @header_ofSource_of_line _ .const _ name (linesOf_listSource h) (clean_listSource h)
    hscan
  have htokens : Line.tokens ⟨0, listSource strings⟩ =
      (scan (listSource strings).toList).map (⟨·, 0⟩) := rfl
  have hkind : Kind.ofWord? "const" = some .const := by decide
  have hdeclared : Grammar.declare [] ⟨"L", 0⟩ = .ok ⟨"L", 0⟩ := by
    rw [Grammar.declare, Grammar.checkIdentifier, if_pos (by decide)]
    rfl
  rw [readDefinitions, hheader]
  simp only [Grammar.readDefinitions, Grammar.readDefinition, htokens, hscan, List.cons_append,
    List.nil_append, List.map_cons, hkind]
  by_cases hend : (splitWord ['['] (listItems strings ++ [']'])).2 = []
  · rw [if_pos hend, hend, Lexeme.scan_nil]
    simp only [List.map_nil, Grammar.readConst, Grammar.readValue, hdeclared, bind, Except.bind,
      List.drop_nil, Grammar.readDefinitions]
    rfl
  · obtain ⟨lexeme, more, hmore⟩ :=
      List.exists_cons_of_ne_nil (mt scan_splitWord_snd_eq_nil_iff.1 hend)
    rw [if_neg hend, hmore]
    rfl

end Document

/-- The text of a list starts with a square bracket, before which no word stops. -/
theorem meets_listText {p : List Char → Char → Prop} (hp : ¬p [] '[') :
    Meets p [] (listText strings).toList ↔
      Meets p ['['] (listItems strings ++ [']']) := by
  have hnest : Lexeme.nest [] '[' = ['['] := by decide
  rw [toList_listText, Lexeme.meets_cons, or_iff_right hp, hnest]

theorem meets_stops_listText :
    Meets Stops [] (listText strings).toList ↔
      (splitWord ['['] (listItems strings ++ [']'])).2 ≠ [] := by
  have hopens : ¬Stops [] '[' := fun h => absurd h.2 (by decide)
  rw [meets_listText hopens, Ne, Lexeme.splitWord_snd_eq_nil_iff, Classical.not_not]

theorem meets_drops_listText :
    Meets Drops [] (listText strings).toList ↔
      Meets Drops ['['] (listItems strings ++ [']']) :=
  meets_listText fun h => absurd h.1 (by decide)

/-- Nothing stops the word and nothing is dropped if no string opens an angle bracket or closes a square
one. -/
theorem not_meets_listText
    (h : ∀ string ∈ strings, ∀ c ∈ string.toList, c ≠ '<' ∧ c ≠ ']') :
    ¬Meets Stops [] (listText strings).toList ∧
      ¬Meets Drops [] (listText strings).toList := by
  have hitems : ∀ c ∈ listItems strings, c ≠ '<' ∧ c ≠ ']' :=
    forall_mem_listItems (by decide) (by decide) (by decide) h
  have hopened : Lexeme.Square ['['] := by simp [Lexeme.Square]
  constructor
  · rw [meets_stops_listText, Classical.not_not, Lexeme.splitWord_snd_eq_nil_iff]
    exact Lexeme.not_meets_of_square Lexeme.not_stops_of_square hitems hopened
  · rw [meets_drops_listText]
    exact Lexeme.not_meets_of_square Lexeme.not_drops_of_square hitems hopened

namespace Document

/-- A constant with a list of strings cannot be read if a word stops in its list. Else it has the list
without what is dropped, which are blanks, and so the list as it is written if nothing is. Neither
happens if no string opens an angle bracket or closes a square one. -/
theorem read_listSource (name : String) (h : PlainStrings strings) :
    (Meets Stops [] (listText strings).toList →
      ∃ fault, (ofSource name (listSource strings)).read = .error fault ∧
        fault.category = .invalidShape (.definition .const)) ∧
    (¬Meets Stops [] (listText strings).toList →
      ∃ value, (ofSource name (listSource strings)).read =
          .ok { ofSource name (listSource strings) with
            definitions := [⟨⟨"L", 0⟩, .const "list<string>" value⟩] } ∧
        value.toList.filter (!Text.isBlank ·) =
          (listText strings).toList.filter (!Text.isBlank ·) ∧
        (value = listText strings ↔ ¬Meets Drops [] (listText strings).toList)) ∧
    ((∀ string ∈ strings, ∀ c ∈ string.toList, c ≠ '<' ∧ c ≠ ']') →
      ¬Meets Stops [] (listText strings).toList ∧
        ¬Meets Drops [] (listText strings).toList) := by
  have hread := readDefinitions_listSource name h
  refine ⟨fun hstops => ?_, fun hstops => ?_, not_meets_listText⟩
  · rw [meets_stops_listText] at hstops
    rw [if_neg hstops] at hread
    exact ⟨_, by rw [read, hread], rfl⟩
  · rw [meets_stops_listText, Classical.not_not] at hstops
    rw [if_pos hstops] at hread
    have hheader := @header_ofSource_of_line _ .const _ name (linesOf_listSource h)
      (clean_listSource h) (scan_listSource strings)
    refine ⟨_, read_eq_ok_iff.2 ⟨_, hread, by rw [hheader]⟩, ?_, ?_⟩
    · have hfilter := Lexeme.filter_splitWord ['['] (listItems strings ++ [']'])
      rw [hstops, List.filter_nil, List.append_nil] at hfilter
      rw [String.toList_ofList, toList_listText, List.filter_cons, List.filter_cons, hfilter]
    · have hwhole := Lexeme.splitWord_fst_eq_self_iff ((Lexeme.splitWord_snd_eq_nil_iff _ _).1 hstops)
      rw [meets_drops_listText, ← hwhole, ← String.toList_inj, String.toList_ofList, toList_listText,
        List.cons_inj_right]

/-- A list with the mark of a comment and brackets in its strings, one with a string that closes the
list's bracket, and one with a blank after a bracket that is not closed. -/
theorem read_listSource_brackets :
    (∃ value, (ofSource "a.thrift" (listSource ["x[0] # 'y'", ""])).read =
        .ok { ofSource "a.thrift" (listSource ["x[0] # 'y'", ""]) with
          definitions := [⟨⟨"L", 0⟩, .const "list<string>" value⟩] } ∧
      value = listText ["x[0] # 'y'", ""]) ∧
    (∃ fault, (ofSource "a.thrift" (listSource ["a]"])).read = .error fault ∧
      fault.category = .invalidShape (.definition .const)) ∧
    ∃ value, (ofSource "a.thrift" (listSource ["1 < 2"])).read =
        .ok { ofSource "a.thrift" (listSource ["1 < 2"]) with
          definitions := [⟨⟨"L", 0⟩, .const "list<string>" value⟩] } ∧
      value ≠ listText ["1 < 2"] := by
  have hkept : PlainStrings ["x[0] # 'y'", ""] := by simp [PlainStrings, Canonical.isPlain]
  have hclosed : PlainStrings ["a]"] := by simp [PlainStrings, Canonical.isPlain]
  have hangle : PlainStrings ["1 < 2"] := by simp [PlainStrings, Canonical.isPlain]
  refine ⟨?_, ?_, ?_⟩
  · have hstops : ¬Meets Stops [] (listText ["x[0] # 'y'", ""]).toList := by
      rw [← Lexeme.splitWord_snd_eq_nil_iff]
      decide +kernel
    have hdrops : ¬Meets Drops [] (listText ["x[0] # 'y'", ""]).toList := by
      rw [← Lexeme.splitWord_fst_eq_self_iff hstops]
      decide +kernel
    obtain ⟨value, hread, -, hvalue⟩ := (read_listSource "a.thrift" hkept).2.1 hstops
    exact ⟨value, hread, hvalue.2 hdrops⟩
  · have hstops : Meets Stops [] (listText ["a]"]).toList := by
      by_contra hstops
      rw [← Lexeme.splitWord_snd_eq_nil_iff] at hstops
      revert hstops
      decide +kernel
    exact (read_listSource "a.thrift" hclosed).1 hstops
  · have hstops : ¬Meets Stops [] (listText ["1 < 2"]).toList := by
      rw [← Lexeme.splitWord_snd_eq_nil_iff]
      decide +kernel
    have hdrops : Meets Drops [] (listText ["1 < 2"]).toList :=
      ⟨"[\"1 <".toList, ' ', "2\"]".toList, by decide +kernel, by decide, by decide +kernel⟩
    obtain ⟨value, hread, -, hvalue⟩ := (read_listSource "a.thrift" hangle).2.1 hstops
    exact ⟨value, hread, fun heq => hvalue.1 heq hdrops⟩

/-- Not every list of strings is kept as it is written. -/
theorem not_read_listSource : ¬∀ strings : List String, PlainStrings strings →
    ∃ document, (ofSource "a.thrift" (listSource strings)).read = .ok document ∧
      document.definitions = [⟨⟨"L", 0⟩, .const "list<string>" (listText strings)⟩] := by
  intro h
  have hangle : PlainStrings ["1 < 2"] := by simp [PlainStrings, Canonical.isPlain]
  obtain ⟨document, hread, hdefinitions⟩ := h _ hangle
  obtain ⟨definitions, hfound, rfl⟩ := read_eq_ok_iff.1 hread
  rw [readDefinitions_listSource "a.thrift" hangle, if_pos (by decide +kernel)] at hfound
  have hwritten := (Except.ok.inj hfound).trans hdefinitions
  revert hwritten
  decide +kernel

end Document

end ThriftIdl

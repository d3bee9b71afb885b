import Mathlib.Data.List.DropRight
import ThriftIdl.Proofs.Grammar.WellFormed

/-!
The texts of a senum. A literal goes from a quote to the next one like it that is not escaped, or to
the end of its line. A senum takes its text without the quotes; of a literal that the end of the
line cuts off after an escaped quote this quote is lost.
-/

namespace ThriftIdl

namespace Lexeme

/-- The character after these is escaped: they end in an odd number of backslashes. -/
def Escapes (before : List Char) : Prop := (before.rtakeWhile (· == '\\')).length % 2 = 1

instance : DecidablePred Escapes :=
  fun before => inferInstanceAs (Decidable ((before.rtakeWhile (· == '\\')).length % 2 = 1))

variable {quote c : Char} {before value inner text line : List Char}

theorem not_escapes_nil : ¬Escapes [] := by decide

theorem escapes_append_singleton : Escapes (before ++ [c]) ↔ c = '\\' ∧ ¬Escapes before := by
  rw [Escapes, Escapes, List.rtakeWhile_concat]
  by_cases hc : c = '\\'
  · rw [if_pos (by simp [hc]), List.length_append, List.length_singleton]
    simp only [hc, true_and]
    omega
  · rw [if_neg (by simp [hc])]
    simp [hc]

/-- Every such quote among the characters is escaped by those that stand before it. -/
def Guarded (quote : Char) (before text : List Char) : Prop :=
  ∀ left right, text = left ++ quote :: right → Escapes (before ++ left)

theorem guarded_nil : Guarded quote before [] := by
  intro left right h
  simp at h

theorem guarded_cons :
    Guarded quote before (c :: text) ↔
      (c = quote → Escapes before) ∧ Guarded quote (before ++ [c]) text := by
  constructor
  · intro h
    refine ⟨?_, fun left right htext => ?_⟩
    · rintro rfl
      simpa using h [] text rfl
    · simpa using h (c :: left) right (by rw [htext, List.cons_append])
  · rintro ⟨hfirst, hrest⟩ left right htext
    rcases List.cons_eq_append_iff.1 htext with ⟨rfl, hquote⟩ | ⟨more, rfl, hmore⟩
    · rw [List.append_nil]
      exact hfirst (List.cons.inj hquote).1.symm
    · simpa using hrest more right hmore

/-- A literal is split off after its first quote that is not escaped, or at the end of the text. -/
theorem splitLiteral_guarded (hquote : quote ≠ '\\') (hbefore : ¬Escapes before)
    (text : List Char) :
    (∃ value, (splitLiteral quote text).1 = value ++ [quote] ∧ ¬Escapes (before ++ value) ∧
        Guarded quote before value) ∨
      (splitLiteral quote text).2 = [] ∧ Guarded quote before (splitLiteral quote text).1 := by
  fun_induction splitLiteral quote text generalizing before with
  | case1 => exact .inr ⟨rfl, guarded_nil⟩
  | case2 c rest inner after hsplit ih =>
    rw [hsplit] at ih
    -- After the backslash the character is escaped, and what follows the two is not.
    have hslash : Escapes (before ++ ['\\']) := escapes_append_singleton.2 ⟨rfl, hbefore⟩
    have hboth : ¬Escapes (before ++ ['\\'] ++ [c]) :=
      fun h => (escapes_append_singleton.1 h).2 hslash
    have hguarded : ∀ more, Guarded quote (before ++ ['\\'] ++ [c]) more →
        Guarded quote before ('\\' :: c :: more) := fun more hmore =>
      guarded_cons.2 ⟨fun h => absurd h.symm hquote, guarded_cons.2 ⟨fun _ => hslash, hmore⟩⟩
    rcases ih hboth with ⟨value, rfl, hvalue, hinside⟩ | ⟨hend, hinside⟩
    · exact .inl ⟨'\\' :: c :: value, rfl, by simpa using hvalue, hguarded value hinside⟩
    · exact .inr ⟨hend, hguarded inner hinside⟩
  | case3 rest _ => exact .inl ⟨[], rfl, by simpa using hbefore, guarded_nil⟩
  | case4 c rest hescape hother inner after hsplit ih =>
    rw [hsplit] at ih
    by_cases hslash : c = '\\'
    · obtain rfl : rest = [] := by
        cases rest with
        | nil => rfl
        | cons d rest => exact absurd rfl (hescape d rest hslash)
      cases hsplit
      exact .inr ⟨rfl, guarded_cons.2 ⟨fun h => absurd h hother, guarded_nil⟩⟩
    · have hnext : ¬Escapes (before ++ [c]) := fun h => hslash (escapes_append_singleton.1 h).1
      have hguarded : ∀ more, Guarded quote (before ++ [c]) more →
          Guarded quote before (c :: more) :=
        fun more hmore => guarded_cons.2 ⟨fun h => absurd h hother, hmore⟩
      rcases ih hnext with ⟨value, rfl, hvalue, hinside⟩ | ⟨hend, hinside⟩
      · exact .inl ⟨c :: value, rfl, by simpa using hvalue, hguarded value hinside⟩
      · exact .inr ⟨hend, hguarded inner hinside⟩

/-- The literal ends in a quote like its first one, and this is not escaped. -/
def Terminated (text : List Char) : Prop :=
  ∃ quote value, text = quote :: (value ++ [quote]) ∧ ¬Escapes value

/-- The literal ends in a quote like its first one, but this is escaped. -/
def EndsEscaped (text : List Char) : Prop :=
  ∃ quote value, text = quote :: (value ++ [quote]) ∧ Escapes value

/-- The text stands on the line from a quote to the next one like it that is not escaped, or to the
end of the line. -/
def Delimited (text line : List Char) : Prop :=
  ∃ quote inner, text = quote :: inner ∧ Line.isQuote quote = true ∧
    (∀ left right, inner = left ++ quote :: right → right ≠ [] → Escapes left) ∧
    (Terminated text ∨ text <:+ line)

theorem Delimited.of_suffix {rest : List Char} (h : Delimited text rest) (hrest : rest <:+ line) :
    Delimited text line := by
  obtain ⟨quote, inner, htext, hquote, hinside, hends⟩ := h
  exact ⟨quote, inner, htext, hquote, hinside, hends.imp_right fun hend => hend.trans hrest⟩

/-- The literals that scanning gives are delimited. -/
theorem delimited_of_mem_scan {text : String} (h : .literal text ∈ scan line) :
    Delimited text.toList line := by
  fun_induction scan line with
  | case1 => exact absurd h List.not_mem_nil
  | case2 c rest _ ih => exact (ih h).of_suffix (List.suffix_cons c rest)
  | case3 c rest _ _ ih =>
    rcases List.mem_cons.1 h with h | h
    · cases h
    · exact (ih h).of_suffix (List.suffix_cons c rest)
  | case4 c rest _ _ hquote _ ih =>
    rcases List.mem_cons.1 h with h | h
    · cases h
      have hslash : c ≠ '\\' := by
        rintro rfl
        exact absurd hquote (by decide)
      have happend := splitLiteral_append c rest
      rw [String.toList_ofList]
      refine ⟨c, _, rfl, hquote, ?_⟩
      rcases splitLiteral_guarded hslash not_escapes_nil rest with
        ⟨value, hvalue, hends, hinside⟩ | ⟨hend, hinside⟩
      · rw [hvalue]
        refine ⟨fun left right hinner hright => ?_, .inl ⟨c, value, rfl, hends⟩⟩
        obtain ⟨more, last, rfl⟩ := (List.eq_nil_or_concat' right).resolve_left hright
        rw [← List.cons_append, ← List.append_assoc] at hinner
        exact hinside left more (List.append_inj_left' hinner rfl)
      · refine ⟨fun left right hinner _ => hinside left right hinner, .inr ?_⟩
        rw [hend, List.append_nil] at happend
        exact ⟨[], congrArg (List.cons c) happend⟩
    · exact (ih h).of_suffix ((splitLiteral_suffix c rest).trans (List.suffix_cons c rest))
  | case5 c rest _ _ _ _ ih =>
    rcases List.mem_cons.1 h with h | h
    · cases h
    · exact (ih h).of_suffix ((splitWord_suffix _ rest).trans (List.suffix_cons c rest))

/-- What ends in its quote is terminated or ends in an escaped quote, but not both. -/
theorem terminated_concat : Terminated (quote :: (value ++ [quote])) ↔ ¬Escapes value := by
  constructor
  · rintro ⟨other, same, htext, hends⟩
    obtain ⟨rfl, htext⟩ := List.cons.inj htext
    rwa [List.append_cancel_right htext]
  · intro h
    exact ⟨quote, value, rfl, h⟩

theorem endsEscaped_concat : EndsEscaped (quote :: (value ++ [quote])) ↔ Escapes value := by
  constructor
  · rintro ⟨other, same, htext, hends⟩
    obtain ⟨rfl, htext⟩ := List.cons.inj htext
    rwa [List.append_cancel_right htext]
  · intro h
    exact ⟨quote, value, rfl, h⟩

/-- What does not end in its quote is neither. -/
theorem not_ends (h : inner.getLast? ≠ some quote) :
    ¬Terminated (quote :: inner) ∧ ¬EndsEscaped (quote :: inner) := by
  have hnot : ∀ other value, quote :: inner ≠ other :: (value ++ [other]) := by
    intro other value htext
    obtain ⟨rfl, rfl⟩ := List.cons.inj htext
    exact h (List.getLast?_concat ..)
  exact ⟨fun ⟨other, value, htext, _⟩ => hnot other value htext,
    fun ⟨other, value, htext, _⟩ => hnot other value htext⟩

/-- The value is the literal's text without the quote that opens it and, exactly if the literal is
terminated, without the quote that closes it. -/
def Bares (text value : List Char) : Prop :=
  ∃ quote, Terminated text ∧ text = quote :: (value ++ [quote]) ∨
    ¬Terminated text ∧ text = quote :: value

end Lexeme

namespace Grammar

open Lexeme

variable {quote : Char} {value inner text line : List Char}

theorem unquote_concat (hquote : Line.isQuote quote = true) :
    unquote (quote :: (value ++ [quote])) = value := by
  rw [unquote, if_pos hquote, if_pos (List.getLast?_concat ..), List.dropLast_concat]

theorem unquote_of_not_ends (hquote : Line.isQuote quote = true)
    (h : inner.getLast? ≠ some quote) : unquote (quote :: inner) = inner := by
  rw [unquote, if_pos hquote, if_neg h]

/-- A literal is terminated, ends in an escaped quote, or does not end in its quote. Only in the last
case nothing is taken off its end. -/
theorem unquote_cases (h : Delimited text line) :
    ∃ quote, text.head? = some quote ∧
      (Terminated text ∧ ¬EndsEscaped text ∧ text = quote :: (unquote text ++ [quote]) ∨
        EndsEscaped text ∧ ¬Terminated text ∧ text = quote :: (unquote text ++ [quote]) ∨
        ¬Terminated text ∧ ¬EndsEscaped text ∧ text = quote :: unquote text) := by
  obtain ⟨quote, inner, rfl, hquote, -, -⟩ := h
  refine ⟨quote, rfl, ?_⟩
  by_cases hlast : inner.getLast? = some quote
  · obtain ⟨value, rfl⟩ := List.getLast?_eq_some_iff.1 hlast
    rw [unquote_concat hquote, terminated_concat, endsEscaped_concat, not_not]
    by_cases hescaped : Escapes value
    · exact .inr (.inl ⟨hescaped, hescaped, rfl⟩)
    · exact .inl ⟨hescaped, hescaped, rfl⟩
  · obtain ⟨hterminated, hescaped⟩ := not_ends hlast
    rw [unquote_of_not_ends hquote hlast]
    exact .inr (.inr ⟨hterminated, hescaped, rfl⟩)

/-- The quotes of a literal are taken off as they should, unless it ends in an escaped quote. -/
theorem bares_unquote_iff (h : Delimited text line) :
    Bares text (unquote text) ↔ ¬EndsEscaped text := by
  obtain ⟨quote, -, ⟨hterminated, hescaped, htext⟩ | ⟨hescaped, hterminated, htext⟩ |
    ⟨hterminated, hescaped, htext⟩⟩ := unquote_cases h
  · exact iff_of_true ⟨quote, .inl ⟨hterminated, htext⟩⟩ hescaped
  · refine iff_of_false ?_ (not_not_intro hescaped)
    rintro ⟨other, ⟨hends, -⟩ | ⟨-, hother⟩⟩
    · exact hterminated hends
    · have hlength := congrArg List.length (htext.symm.trans hother)
      simp at hlength
  · exact iff_of_true ⟨quote, .inr ⟨hterminated, htext⟩⟩ hescaped

variable {one other before after : List Char}

/-- Terminated literals with the same quote are told apart by what is between their quotes. -/
theorem unquote_eq_iff_of_terminated (hone : Delimited one before) (hother : Delimited other after)
    (hquote : one.head? = other.head?) (hends : Terminated one) (hendsOther : Terminated other) :
    unquote one = unquote other ↔ one = other := by
  refine ⟨fun hsame => ?_, fun h => h ▸ rfl⟩
  obtain ⟨quote, hhead, ⟨-, -, htext⟩ | ⟨-, hopen, -⟩ | ⟨hopen, -⟩⟩ := unquote_cases hone
  · obtain ⟨same, hheadOther, ⟨-, -, htextOther⟩ | ⟨-, hopen, -⟩ | ⟨hopen, -⟩⟩ :=
      unquote_cases hother
    · obtain rfl : quote = same :=
        Option.some.inj (hhead.symm.trans (hquote.trans hheadOther))
      rw [htext, htextOther, hsame]
    · exact absurd hendsOther hopen
    · exact absurd hendsOther hopen
  · exact absurd hends hopen
  · exact absurd hends hopen

/-- An escaped quote more at the end of a literal is lost. -/
theorem unquote_append_quote (hone : Delimited one before) (hquote : one.head? = some quote)
    (hopen : ¬Terminated (one ++ [quote])) : unquote (one ++ [quote]) = unquote one := by
  obtain ⟨same, inner, rfl, hsame, -, -⟩ := hone
  obtain rfl : same = quote := Option.some.inj hquote
  rw [List.cons_append, terminated_concat, not_not] at hopen
  have hlast : inner.getLast? ≠ some same := by
    intro hlast
    obtain ⟨value, rfl⟩ := List.getLast?_eq_some_iff.1 hlast
    obtain ⟨rfl, -⟩ := escapes_append_singleton.1 hopen
    exact absurd hsame (by decide)
  rw [List.cons_append, unquote_concat hsame, unquote_of_not_ends hsame hlast]

/-- Of literals that are not terminated and have the same quote, two give the same text if one of them
is the other with an escaped quote more at its end. -/
theorem unquote_eq_iff_of_open (hone : Delimited one before) (hother : Delimited other after)
    (hquote : one.head? = other.head?) (hopen : ¬Terminated one) (hopenOther : ¬Terminated other) :
    unquote one = unquote other ↔
      one = other ∨ other = one ++ one.head?.toList ∨ one = other ++ other.head?.toList := by
  obtain ⟨quote, hhead, hcases⟩ := unquote_cases hone
  obtain ⟨same, hheadOther, hcasesOther⟩ := unquote_cases hother
  obtain rfl : quote = same := Option.some.inj (hhead.symm.trans (hquote.trans hheadOther))
  rw [hhead, hheadOther, Option.toList_some]
  constructor
  · intro hsame
    rcases hcases with ⟨hends, -⟩ | ⟨-, -, htext⟩ | ⟨-, -, htext⟩
    · exact absurd hends hopen
    · rcases hcasesOther with ⟨hends, -⟩ | ⟨-, -, htextOther⟩ | ⟨-, -, htextOther⟩
      · exact absurd hends hopenOther
      · exact .inl (by rw [htext, htextOther, hsame])
      · exact .inr (.inr (by rw [htext, htextOther, hsame, List.cons_append]))
    · rcases hcasesOther with ⟨hends, -⟩ | ⟨-, -, htextOther⟩ | ⟨-, -, htextOther⟩
      · exact absurd hends hopenOther
      · exact .inr (.inl (by rw [htext, htextOther, hsame, List.cons_append]))
      · exact .inl (by rw [htext, htextOther, hsame])
  · rintro (rfl | rfl | rfl)
    · rfl
    · exact (unquote_append_quote hone hhead hopenOther).symm
    · exact unquote_append_quote hother hheadOther hopen

/-- A literal ends in an escaped quote only if the end of its line cuts it off. This quote is taken off
too. -/
theorem cutOff_of_endsEscaped (h : Delimited text line) (hescaped : EndsEscaped text) :
    ¬Terminated text ∧ text <:+ line ∧ ∃ quote, text = quote :: (unquote text ++ [quote]) := by
  obtain ⟨quote, -, ⟨-, hnot, -⟩ | ⟨-, hopen, htext⟩ | ⟨-, hnot, -⟩⟩ := unquote_cases h
  · exact absurd hescaped hnot
  · obtain ⟨_, _, -, -, -, hends⟩ := h
    exact ⟨hopen, hends.resolve_left hopen, quote, htext⟩
  · exact absurd hescaped hnot

theorem delimited_of_mem_tokens {line : Line} {token : Token} {text : String}
    (h : token ∈ line.tokens) (htext : token.lexeme = .literal text) :
    Delimited text.toList line.text.toList := by
  obtain ⟨lexeme, hlexeme, rfl⟩ := List.mem_map.1 h
  obtain rfl : lexeme = .literal text := htext
  exact delimited_of_mem_scan hlexeme

/-- The literals of a line are delimited by quotes, and a senum takes them without these, unless the end
of the line cuts a literal off after an escaped quote: exactly then this quote is taken off too. Literals
with the same quote that are both terminated give the same text only if they are equal, and two that
are both not terminated also if one has an escaped quote more at its end. The texts of a senum are
those of its literals, and no two of them are equal. -/
theorem unquote_literals (line next : Line) (first second : Token) (one other : String)
    (hfirst : first ∈ line.tokens) (hone : first.lexeme = .literal one)
    (hsecond : second ∈ next.tokens) (hother : second.lexeme = .literal other) :
    Delimited one.toList line.text.toList ∧
    (Bares one.toList (unquote one.toList) ↔ ¬EndsEscaped one.toList) ∧
    (EndsEscaped one.toList → ¬Terminated one.toList ∧ one.toList <:+ line.text.toList ∧
      ∃ quote, one.toList = quote :: (unquote one.toList ++ [quote])) ∧
    (one.toList.head? = other.toList.head? →
      (Terminated one.toList → Terminated other.toList →
        (unquote one.toList = unquote other.toList ↔ one = other)) ∧
      (¬Terminated one.toList → ¬Terminated other.toList →
        (unquote one.toList = unquote other.toList ↔
          one = other ∨ other.toList = one.toList ++ one.toList.head?.toList ∨
            one.toList = other.toList ++ other.toList.head?.toList))) ∧
    ∀ (base? : Option String) (block : Block) (body : Body),
      readBody .senum base? block = .ok body ↔
        ∃ values, List.Forall₂ Quotes (block.tokens.filter (!·.isSeparator)) values ∧
          (values.map (·.text)).Nodup ∧ body = .senum (values.map (·.text)) := by
  have hdelimited := delimited_of_mem_tokens hfirst hone
  have hdelimitedOther := delimited_of_mem_tokens hsecond hother
  refine ⟨hdelimited, bares_unquote_iff hdelimited, cutOff_of_endsEscaped hdelimited,
    fun hquote => ?_, fun _ _ _ => readBody_senum_eq_ok_iff⟩
  rw [← String.toList_inj]
  exact ⟨unquote_eq_iff_of_terminated hdelimited hdelimitedOther hquote,
    unquote_eq_iff_of_open hdelimited hdelimitedOther hquote⟩

/-- A literal that ends in an escaped backslash, one with an escaped quote, and one that the end of the
line cuts off. -/
def quoted : Line := ⟨4, "\"C:\\\\\", 'it\\'s' \"on\\\"e"⟩

/-- Of each of them exactly the quotes that delimit it are taken off, and the first is told from one with
another text. -/
theorem unquote_literals_quoted :
    Bares "\"C:\\\\\"".toList "C:\\\\".toList ∧ Bares "'it\\'s'".toList "it\\'s".toList ∧
      Bares "\"on\\\"e".toList "on\\\"e".toList ∧
      (unquote "\"C:\\\\\"".toList = unquote "\"D:\"".toList ↔ "\"C:\\\\\"" = "\"D:\"") := by
  have hfirst : ⟨.literal "\"C:\\\\\"", 4⟩ ∈ quoted.tokens := by decide +kernel
  have hsecond : ⟨.literal "'it\\'s'", 4⟩ ∈ quoted.tokens := by decide +kernel
  have hthird : ⟨.literal "\"on\\\"e", 4⟩ ∈ quoted.tokens := by decide +kernel
  have hother : ⟨.literal "\"D:\"", 0⟩ ∈ Line.tokens ⟨0, "\"D:\""⟩ := by decide +kernel
  obtain ⟨-, hdisk, -, hapart, -⟩ := unquote_literals quoted _ _ _ _ _ hfirst rfl hother rfl
  obtain ⟨-, hit, -⟩ := unquote_literals quoted quoted _ _ _ _ hsecond rfl hsecond rfl
  obtain ⟨-, hon, -⟩ := unquote_literals quoted quoted _ _ _ _ hthird rfl hthird rfl
  refine ⟨?_, ?_, ?_, ?_⟩
  · exact hdisk.2 ((@endsEscaped_concat '"' "C:\\\\".toList).not.2 (by decide))
  · exact hit.2 ((@endsEscaped_concat '\'' "it\\'s".toList).not.2 (by decide))
  · exact hon.2 (not_ends (by decide)).2
  · exact (hapart rfl).1
      ((@terminated_concat '"' "C:\\\\".toList).2 (by decide))
      ((@terminated_concat '"' "D:".toList).2 (by decide))

/-- A senum with a literal that the end of its line cuts off after an escaped quote. -/
def cutOff : Document := .ofSource "a.thrift" "senum S \x7b\n\"a\\\"\n\x7d"

/-- The escaped quote at the end of the literal is lost, and so the literal gives the same text as one
without it. -/
theorem not_unquote_literals :
    cutOff.read = .ok { cutOff with definitions := [⟨⟨"S", 0⟩, .senum ["a\\"]⟩] } ∧
    (¬∀ line : Line, ∀ token ∈ line.tokens, ∀ text, token.lexeme = .literal text →
      Bares text.toList (unquote text.toList)) ∧
    ¬∀ line next : Line, ∀ first ∈ line.tokens, ∀ second ∈ next.tokens, ∀ one other,
      first.lexeme = .literal one → second.lexeme = .literal other →
      one.toList.head? = other.toList.head? → ¬Terminated one.toList →
      ¬Terminated other.toList → unquote one.toList = unquote other.toList → one = other := by
  have hescaped : ⟨.literal "\"a\\\"", 0⟩ ∈ Line.tokens ⟨0, "\"a\\\""⟩ := by decide +kernel
  have hslash : ⟨.literal "\"a\\", 0⟩ ∈ Line.tokens ⟨0, "\"a\\"⟩ := by decide +kernel
  have hopen : ¬Terminated "\"a\\\"".toList :=
    fun h => (@terminated_concat '"' "a\\".toList).1 h (by decide)
  refine ⟨by decide +kernel, fun h => ?_, fun h => ?_⟩
  · obtain ⟨quote, ⟨hends, -⟩ | ⟨-, htext⟩⟩ := h _ _ hescaped _ rfl
    · exact hopen hends
    · have hlength := congrArg List.length htext
      rw [List.length_cons] at hlength
      exact absurd hlength (by decide)
  · have hsame := h _ _ _ hescaped _ hslash _ _ rfl rfl rfl hopen (not_ends (by decide)).1 (by decide)
    exact absurd hsame (by decide)

end Grammar

end ThriftIdl

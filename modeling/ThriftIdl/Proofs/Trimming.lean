import ThriftIdl.Proofs.Cursor
import ThriftIdl.Proofs.Joining

/-!
What cleaning leaves at the ends of a line. It takes blanks, separators and blanks from the end
once, so of separators with blanks between them some are left. Only then a cleaned line ends in a
separator, is cleaned to something else, or is delivered although nothing else stands on it.
-/

namespace ThriftIdl

namespace Line

variable {raw : List Char}

/-- The text ends, its comment aside, in two separators with blanks between them and nothing but blanks
and separators after them. -/
def Straggles (raw : List Char) : Prop :=
  ∃ first gap second after, first :: (gap ++ second :: after) <:+ uncomment none raw ∧
    isSeparator first = true ∧ (gap ≠ [] ∧ ∀ c ∈ gap, Text.isBlank c = true) ∧
    isSeparator second = true ∧ ∀ c ∈ after, Lexeme.isLoose c = true

/-- Cleaning does not look at the comment. -/
theorem clean_uncomment (raw : List Char) : clean (uncomment none raw) = clean raw := by
  rw [clean, uncomment_uncomment, ← clean]

/-- The text of a line up to its comment is what cleaning leaves, the separators at its end, and blanks
around both. If blanks stand between the two there are such separators, and if none do what cleaning
leaves does not end in one. -/
theorem exists_uncomment_eq (raw : List Char) :
    ∃ indent before after,
      uncomment none raw =
        indent ++ (clean raw ++ (before ++ (ending (uncomment none raw) ++ after))) ∧
      (∀ c ∈ indent, Text.isBlank c = true) ∧ (∀ c ∈ before, Text.isBlank c = true) ∧
      (∀ c ∈ after, Text.isBlank c = true) ∧
      (before = [] → ∀ c ∈ (clean raw).getLast?, isSeparator c = false) ∧
      (before ≠ [] → ending (uncomment none raw) ≠ []) := by
  obtain ⟨indent, hindent, hindentBlank⟩ := Text.exists_trimStart (uncomment none raw)
  obtain ⟨after, hafter, hafterBlank⟩ :=
    Text.exists_dropEndWhile Text.isBlank (Text.trimStart (uncomment none raw))
  obtain ⟨before, hbefore, hbeforeBlank⟩ := exists_trim_eq (uncomment_uncomment raw)
  rw [clean_uncomment] at hbefore
  have hdropped : Text.dropEndWhile isSeparator (Text.trim (uncomment none raw)) =
      clean raw ++ before := by
    have htrim : Text.dropEndWhile isSeparator (Text.trim (uncomment none raw)) ++
        ending (uncomment none raw) = Text.trim (uncomment none raw) :=
      List.rdropWhile_append_rtakeWhile
    exact List.append_cancel_right (htrim.trans (hbefore.trans (List.append_assoc _ _ _).symm))
  refine ⟨indent, before, after, ?_, hindentBlank, hbeforeBlank, hafterBlank, ?_, ?_⟩
  · rw [← Text.trimEnd, ← Text.trim, hbefore] at hafter
    rw [hafter] at hindent
    simpa using hindent
  · rintro rfl
    rw [List.append_nil] at hdropped
    rw [← hdropped]
    exact Text.of_getLast?_dropEndWhile
  · intro hne hending
    rw [hending, List.append_nil] at hbefore
    have hlast : ∀ c ∈ (Text.trim (uncomment none raw)).getLast?, Text.isBlank c = false :=
      Text.of_getLast?_dropEndWhile
    rw [hbefore, List.getLast?_append_of_ne_nil _ hne, List.getLast?_eq_some_getLast hne] at hlast
    have hblank := hbeforeBlank _ (List.getLast_mem hne)
    rw [hlast _ rfl] at hblank
    cases hblank

/-- Among blanks, separators and blanks no blank stands between two separators. -/
theorem not_sublist_ends {lead separators trail : List Char} {first blank second : Char}
    (hlead : ∀ c ∈ lead, Text.isBlank c = true) (hseparators : ∀ c ∈ separators, isSeparator c = true)
    (htrail : ∀ c ∈ trail, Text.isBlank c = true) (hfirst : isSeparator first = true)
    (hblank : Text.isBlank blank = true) (hsecond : isSeparator second = true) :
    ¬[first, blank, second].Sublist (lead ++ (separators ++ trail)) := by
  have hnot : ∀ {c}, isSeparator c = true → Text.isBlank c = true → False := by
    intro c hseparator hc
    rw [isSeparator_of_isBlank hc] at hseparator
    cases hseparator
  intro h
  obtain ⟨inLead, others, hall, hinLead, hothers⟩ := List.sublist_append_iff.1 h
  rcases List.cons_eq_append_iff.1 hall with ⟨-, rfl⟩ | ⟨_, rfl, -⟩
  · obtain ⟨inSeparators, inTrail, hall, hinSeparators, hinTrail⟩ :=
      List.sublist_append_iff.1 hothers
    rcases List.cons_eq_append_iff.1 hall with ⟨-, rfl⟩ | ⟨more, rfl, hmore⟩
    · exact hnot hfirst (htrail _ (hinTrail.subset List.mem_cons_self))
    · rcases List.cons_eq_append_iff.1 hmore with ⟨rfl, rfl⟩ | ⟨_, rfl, -⟩
      · exact hnot hsecond (htrail _ (hinTrail.subset (by simp)))
      · exact hnot (hseparators _ (hinSeparators.subset (by simp))) hblank
  · exact hnot hfirst (hlead _ (hinLead.subset List.mem_cons_self))

/-- An end of blanks and separators stands after what cleaning leaves, unless this ends in one. -/
theorem suffix_of_loose {text rest part : List Char} (hpart : part <:+ text ++ rest)
    (hloose : ∀ c ∈ part, Lexeme.isLoose c = true)
    (hlast : ∀ c ∈ text.getLast?, Lexeme.isLoose c = false) : part <:+ rest := by
  cases hend : text.getLast? with
  | none =>
    rw [List.getLast?_eq_none_iff.1 hend, List.nil_append] at hpart
    exact hpart
  | some c =>
    obtain ⟨before, rfl⟩ := List.getLast?_eq_some_iff.1 hend
    have hnot : c ∉ part := by
      intro hc
      have hfalse := hlast c hend
      rw [hloose c hc] at hfalse
      cases hfalse
    have hrest : c :: rest <:+ before ++ [c] ++ rest := ⟨before, by simp⟩
    rcases List.suffix_or_suffix_of_suffix hpart hrest with hshort | hlong
    · rcases List.suffix_cons_iff.1 hshort with rfl | hshort
      · exact absurd List.mem_cons_self hnot
      · exact hshort
    · exact absurd (hlong.subset List.mem_cons_self) hnot

/-- A cleaned line ends in a separator exactly if blanks parted two separators at the end. -/
theorem exists_isSeparator_clean_iff :
    (∃ c ∈ (clean raw).getLast?, isSeparator c = true) ↔ Straggles raw := by
  obtain ⟨indent, before, after, htext, hindent, hbefore, hafter, hnone, hsome⟩ :=
    exists_uncomment_eq raw
  constructor
  · rintro ⟨first, hlast, hfirst⟩
    have hgap : before ≠ [] := by
      intro hnil
      rw [hnone hnil first hlast] at hfirst
      cases hfirst
    obtain ⟨second, more, hending⟩ := List.exists_cons_of_ne_nil (hsome hgap)
    obtain ⟨text, hclean⟩ := List.getLast?_eq_some_iff.1 hlast
    have hsecond : isSeparator second = true :=
      isSeparator_of_mem_ending (hending ▸ List.mem_cons_self)
    refine ⟨first, before, second, more ++ after, ⟨indent ++ text, ?_⟩, hfirst, ⟨hgap, hbefore⟩,
      hsecond, ?_⟩
    · rw [htext, hclean, hending]
      simp
    · rw [List.forall_mem_append]
      refine ⟨fun c hc => ?_, isLoose_of_blanks hafter⟩
      have hseparator : isSeparator c = true :=
        isSeparator_of_mem_ending (hending ▸ List.mem_cons_of_mem second hc)
      simp [Lexeme.isLoose, hseparator]
  · rintro ⟨first, gap, second, more, hpart, hfirst, ⟨hgap, hblanks⟩, hsecond, hmore⟩
    by_contra hends
    have hlast : ∀ c ∈ (clean raw).getLast?, Lexeme.isLoose c = false := by
      intro c hc
      have hseparator : isSeparator c = false := by
        rw [Bool.eq_false_iff]
        exact fun hseparator => hends ⟨c, hc, hseparator⟩
      simp [Lexeme.isLoose, isBlank_of_getLast?_clean c hc, hseparator]
    have hloose : ∀ c ∈ first :: (gap ++ second :: more), Lexeme.isLoose c = true := by
      simp only [List.forall_mem_cons, List.forall_mem_append]
      exact ⟨by simp [Lexeme.isLoose, hfirst], isLoose_of_blanks hblanks,
        by simp [Lexeme.isLoose, hsecond], hmore⟩
    -- So the end with the two separators stands in the blanks and separators around the cleaned line.
    have hsublist : (first :: (gap ++ second :: more)).Sublist
        (indent ++ before ++ (ending (uncomment none raw) ++ after)) := by
      rw [htext] at hpart
      rw [List.append_assoc]
      by_cases hclean : clean raw = []
      · rw [hclean] at hpart
        exact hpart.sublist
      · rw [← List.append_assoc] at hpart
        have hrest := suffix_of_loose hpart hloose
          (by rwa [List.getLast?_append_of_ne_nil _ hclean])
        exact hrest.sublist.trans (List.sublist_append_right _ _)
    obtain ⟨blank, gap, rfl⟩ := List.exists_cons_of_ne_nil hgap
    have hthree : [first, blank, second].Sublist (first :: (blank :: gap ++ second :: more)) :=
      ((List.singleton_sublist.2 (by simp)).cons_cons blank).cons_cons first
    have hblank := hblanks blank List.mem_cons_self
    exact not_sublist_ends (List.forall_mem_append.2 ⟨hindent, hbefore⟩)
      (fun c hc => isSeparator_of_mem_ending hc) hafter hfirst hblank hsecond
      (hthree.trans hsublist)

/-- A cleaned line is cleaned to itself exactly if no blanks parted two separators at its end. -/
theorem clean_clean_iff : clean (clean raw) = clean raw ↔ ¬Straggles raw := by
  rw [clean_eq_self_iff, ← exists_isSeparator_clean_iff]
  constructor
  · rintro ⟨-, -, hlast⟩ ⟨c, hc, hseparator⟩
    rw [(hlast c hc).2] at hseparator
    cases hseparator
  · intro h
    refine ⟨uncomment_clean raw, isBlank_of_head?_clean, fun c hc => ?_⟩
    refine ⟨isBlank_of_getLast?_clean c hc, ?_⟩
    rw [Bool.eq_false_iff]
    exact fun hseparator => h ⟨c, hc, hseparator⟩

/-- Of a line of blanks and separators something is left exactly if blanks part two separators. -/
theorem clean_ne_nil_iff (h : ∀ c ∈ uncomment none raw, Lexeme.isLoose c = true) :
    clean raw ≠ [] ↔ Straggles raw := by
  rw [← exists_isSeparator_clean_iff]
  constructor
  · intro hne
    obtain ⟨indent, before, after, htext, -⟩ := exists_uncomment_eq raw
    have hlast := List.getLast?_eq_some_getLast hne
    have hmem : (clean raw).getLast hne ∈ uncomment none raw := by
      rw [htext]
      simp
    have hloose := h _ hmem
    rw [Lexeme.isLoose, isBlank_of_getLast?_clean _ hlast, Bool.false_or] at hloose
    exact ⟨_, hlast, hloose⟩
  · rintro ⟨c, hc, -⟩ hnil
    rw [hnil] at hc
    cases hc

theorem mem_meaningfulFrom_of_raw {first i : Nat} {raws : List String} {raw : String} {line : Line}
    (hraw : raws[i]? = some raw) (hline : ofRaw? (first + i) raw = some line) :
    line ∈ meaningfulFrom first raws := by
  induction raws generalizing first i with
  | nil => cases hraw
  | cons head raws ih =>
    rw [meaningfulFrom, List.mem_append]
    cases i with
    | zero =>
      cases hraw
      exact .inl (Option.mem_toList.2 hline)
    | succ i => exact .inr (ih hraw (by rwa [Nat.add_right_comm, Nat.add_assoc]))

/-- The meaningful lines of a document are what its raw lines leave under their numbers. -/
theorem mem_meaningful_iff {raws : List String} {line : Line} :
    line ∈ meaningful raws ↔ ∃ raw, raws[line.number]? = some raw ∧
      ofRaw? line.number raw = some line := by
  constructor
  · intro h
    obtain ⟨i, raw, hraw, hnumber, hline⟩ := exists_raw_of_mem_meaningfulFrom h
    rw [Nat.zero_add] at hnumber
    rw [hnumber] at hline ⊢
    exact ⟨raw, hraw, hline⟩
  · rintro ⟨raw, hraw, hline⟩
    exact mem_meaningfulFrom_of_raw hraw (by rwa [Nat.zero_add])

/-- Of a raw line a line is delivered exactly if something is left of it. -/
theorem exists_delivers_iff {raws : List String} {number : Nat} {raw : String}
    (hraw : raws[number]? = some raw) :
    (∃ line, Cursor.Delivers raws line ∧ line.number = number) ↔ clean raw.toList ≠ [] := by
  constructor
  · rintro ⟨line, hline, rfl⟩
    obtain ⟨found, hfound, hofRaw⟩ := mem_meaningful_iff.1 (Cursor.delivers_iff.1 hline)
    obtain rfl := Option.some.inj (hraw.symm.trans hfound)
    exact (ofRaw?_eq_some_iff.1 hofRaw).2.2
  · intro hne
    let line : Line := ⟨number, String.ofList (clean raw.toList)⟩
    have hofRaw : ofRaw? line.number raw = some line :=
      ofRaw?_eq_some_iff.2 ⟨rfl, String.toList_ofList, hne⟩
    exact ⟨line, Cursor.delivers_iff.2 (mem_meaningful_iff.2 ⟨raw, hraw, hofRaw⟩), rfl⟩

/-- A line that is delivered is the cleaned raw line of its number, with no blank at its ends. It does
not end in a separator unless the raw line straggles. A cleaned line is cleaned to itself, and a line of
blanks, separators and a comment is not delivered, with the same exception. -/
theorem clean_delivered (raws : List String) :
    (∀ line, Cursor.Delivers raws line → ∃ raw, raws[line.number]? = some raw ∧
      line.text.toList = clean raw.toList ∧
      (∀ c ∈ line.text.toList.head?, Text.isBlank c = false) ∧
      (∀ c ∈ line.text.toList.getLast?, Text.isBlank c = false) ∧
      ((∃ c ∈ line.text.toList.getLast?, isSeparator c = true) ↔ Straggles raw.toList)) ∧
    ∀ number raw, raws[number]? = some raw →
      (clean (clean raw.toList) = clean raw.toList ↔ ¬Straggles raw.toList) ∧
      ((∀ c ∈ uncomment none raw.toList, Lexeme.isLoose c = true) →
        ((∃ line, Cursor.Delivers raws line ∧ line.number = number) ↔ Straggles raw.toList)) := by
  refine ⟨fun line hline => ?_, fun number raw hraw => ⟨clean_clean_iff, fun hloose => ?_⟩⟩
  · obtain ⟨raw, hraw, hofRaw⟩ := mem_meaningful_iff.1 (Cursor.delivers_iff.1 hline)
    have htext := (ofRaw?_eq_some_iff.1 hofRaw).2.1
    rw [htext]
    exact ⟨raw, hraw, rfl, isBlank_of_head?_clean, isBlank_of_getLast?_clean,
      exists_isSeparator_clean_iff⟩
  · rw [exists_delivers_iff hraw, clean_ne_nil_iff hloose]

/-- A line with two separators side by side at its end, and one with two that a blank parts. -/
def enders : List String := ["  1: Red ,; # first", " , ; // none"]

/-- Of the first line nothing is left of its end, and the second line is delivered. -/
theorem clean_delivered_enders :
    Cursor.Delivers enders ⟨0, "1: Red"⟩ ∧ (∀ c ∈ "1: Red".toList.getLast?, isSeparator c = false) ∧
      clean "1: Red".toList = "1: Red".toList ∧
      enders[1]? = some " , ; // none" ∧
      (∀ c ∈ uncomment none " , ; // none".toList, Lexeme.isLoose c = true) ∧
      ∃ line, Cursor.Delivers enders line ∧ line.number = 1 := by
  have hfirst : Cursor.Delivers enders ⟨0, "1: Red"⟩ := Cursor.delivers_iff.2 (by decide +kernel)
  have hloose : ∀ c ∈ uncomment none " , ; // none".toList, Lexeme.isLoose c = true :=
    List.all_eq_true.1 (by decide +kernel)
  have hstraggles : Straggles " , ; // none".toList :=
    ⟨',', [' '], ';', [' '], ⟨[' '], by decide +kernel⟩, rfl, ⟨by simp, by simp; rfl⟩, rfl,
      by simp; rfl⟩
  obtain ⟨raw, hraw, htext, -, -, hends⟩ := (clean_delivered enders).1 _ hfirst
  cases hraw
  have hlast : "1: Red".toList.getLast? = some 'd' := by decide
  have hnot : ¬Straggles "  1: Red ,; # first".toList := by
    rw [← hends, hlast]
    rintro ⟨c, hc, hseparator⟩
    cases hc
    revert hseparator
    decide
  have hagain := ((clean_delivered enders).2 0 _ rfl).1.2 hnot
  rw [← htext] at hagain
  refine ⟨hfirst, ?_, hagain, rfl, hloose, ?_⟩
  · intro c hc
    cases hlast.symm.trans hc
    decide
  · exact (((clean_delivered enders).2 1 _ rfl).2 hloose).2 hstraggles

/-- Cleaned lines end in separators, are cleaned further, and are left of lines of separators. -/
theorem not_clean_delivered : ¬∀ (raws : List String) (line : Line), Cursor.Delivers raws line →
    (∀ c ∈ line.text.toList.getLast?, isSeparator c = false) ∧
      clean line.text.toList = line.text.toList ∧
      ∀ raw, raws[line.number]? = some raw →
        ∃ c ∈ uncomment none raw.toList, Lexeme.isLoose c = false := by
  intro h
  have hline : Cursor.Delivers ["a , ;"] ⟨0, "a ,"⟩ := Cursor.delivers_iff.2 (by decide +kernel)
  have hends := (h _ _ hline).1 ',' rfl
  exact absurd hends (by decide)

end Line

end ThriftIdl

import ThriftIdl.Proofs.Grammar.Loops
import ThriftIdl.Proofs.Grammar.WellFormed

/-!
The exceptions that a function throws. Each is a field with its id, or a type alone: its id is then
one more than that of the exception before it, or 1 if it is the first. After the greatest id the
reader would give the same one again, and this the check for repeated ids refuses, so no list that
is accepted shows it.
-/

namespace ThriftIdl.Grammar

variable {last opened : Nat} {tokens more rest separators : List Token} {fields : List Field}
  {before field : Field}

/-- The id that an exception given by its type alone has after the fields. -/
def followingId (fields : List Field) : Int :=
  match fields.getLast? with
  | none => 1
  | some before => before.id.toInt + 1

/-- The tokens start with an entry for the field, and the rest follows. The entry is a type alone if
no colon follows its first token, and else a field with its id. -/
inductive IsEntry (last : Nat) (fields : List Field) : List Token → Field → List Token → Prop
  | bare {type : String} {line : Nat} {id : Int16} {rest : List Token}
      (hcolon : Lacks (.mark ':') rest) (hid : id.toInt = followingId fields) :
      IsEntry last fields (⟨.word type, line⟩ :: rest)
        { id, requiredness := .unstated, type, name := type, default? := none, line } rest
  | numbered {token : Token} {field : Field} {more rest : List Token}
      (hcolon : ¬Lacks (.mark ':') more) (hread : readField last (token :: more) = .ok (field, rest)) :
      IsEntry last fields (token :: more) field rest

/-- The tokens start with entries for the fields, separators before any of them, and the rest
follows. -/
inductive Lists (last : Nat) (tokens : List Token) : List Field → List Token → Prop
  | start : Lists last tokens [] tokens
  | entry {fields : List Field} {field : Field} {separators more rest : List Token}
      (h : Lists last tokens fields (separators ++ more))
      (hseparators : ∀ token ∈ separators, token.isSeparator = true)
      (hentry : IsEntry last fields more field rest) : Lists last tokens (fields ++ [field]) rest

/-- The id that is given is the following one, or else that of the field before. -/
theorem nextId_cases (fields : List Field) :
    (nextId fields).toInt = followingId fields ∨
      ∃ before, fields.getLast? = some before ∧ before.id.toInt = 32767 ∧
        nextId fields = before.id := by
  rw [nextId, followingId]
  cases hlast : fields.getLast? with
  | none => exact .inl rfl
  | some before =>
    dsimp only
    split
    · next hmax => exact .inr ⟨before, rfl, by rw [hmax]; rfl, rfl⟩
    · next hmax =>
      left
      have hlow := before.id.le_toInt
      have hhigh := before.id.toInt_lt
      have hless : before.id.toInt ≠ 32767 := fun heq => hmax (Int16.toInt_inj.1 heq)
      have hone : (1 : Int16).toInt = 1 := rfl
      rw [Int16.toInt_add, hone, Int.bmod_eq_of_le (by omega) (by omega)]

theorem nextId_of_followingId {id : Int16} (h : id.toInt = followingId fields) :
    nextId fields = id := by
  rcases nextId_cases fields with hnext | ⟨before, hlast, hmax, -⟩
  · exact Int16.toInt_inj.1 (hnext.trans h.symm)
  · rw [followingId, hlast] at h
    dsimp only at h
    have hhigh := id.toInt_lt
    omega

theorem nextId_of_greatest (hlast : fields.getLast? = some before)
    (hmax : before.id.toInt = 32767) : nextId fields = before.id := by
  rcases nextId_cases fields with hnext | ⟨other, hother, -, hid⟩
  · rw [followingId, hlast] at hnext
    dsimp only at hnext
    have hhigh := (nextId fields).toInt_lt
    omega
  · rw [hlast] at hother
    cases hother
    exact hid

theorem startsField_eq_false_iff {token : Token} :
    startsField (token :: rest) = false ↔ Lacks (.mark ':') rest := by
  cases rest with
  | nil => simp [startsField, Lacks]
  | cons colon rest => simp [startsField, Lacks]

theorem readEntry_of_lacks {token : Token} (hcolon : Lacks (.mark ':') rest) :
    readEntry true last fields (token :: rest) =
      readBareException last fields (token :: rest) := by
  rw [readEntry, startsField_eq_false_iff.2 hcolon]
  rfl

theorem readEntry_of_not_lacks {token : Token} (hcolon : ¬Lacks (.mark ':') rest) :
    readEntry true last fields (token :: rest) = readField last (token :: rest) := by
  have hstarts : startsField (token :: rest) = true :=
    Bool.of_not_eq_false fun hfalse => hcolon (startsField_eq_false_iff.1 hfalse)
  rw [readEntry, hstarts]
  rfl

theorem IsEntry.readEntry (h : IsEntry last fields tokens field rest) :
    readEntry true last fields tokens = .ok (field, rest) := by
  cases h with
  | bare hcolon hid =>
    rw [readEntry_of_lacks hcolon, ← nextId_of_followingId hid]
    rfl
  | numbered hcolon hread => rw [readEntry_of_not_lacks hcolon, hread]

/-- What is read as an entry is one, if its id is not that of a field before. -/
theorem isEntry_of_readEntry {token : Token}
    (h : readEntry true last fields (token :: more) = .ok (field, rest))
    (hnew : field.id ∉ fields.map (·.id)) : IsEntry last fields (token :: more) field rest := by
  by_cases hcolon : Lacks (.mark ':') more
  · rw [readEntry_of_lacks hcolon] at h
    rcases token with ⟨type | text | c, line⟩
    · cases h
      rcases nextId_cases fields with hnext | ⟨before, hlast, -, hid⟩
      · exact .bare hcolon hnext
      · dsimp only at hnew
        rw [hid] at hnew
        exact absurd (List.mem_map_of_mem (List.mem_of_getLast? hlast)) hnew
    · cases h
    · cases h
  · rw [readEntry_of_not_lacks hcolon] at h
    exact .numbered hcolon h

theorem IsEntry.exists_word (h : IsEntry last fields tokens field rest) :
    ∃ word line more, tokens = ⟨.word word, line⟩ :: more := by
  cases h with
  | bare => exact ⟨_, _, _, rfl⟩
  | @numbered token _ more _ _ hread =>
    obtain ⟨_, hid, -⟩ := bind_eq_ok.1 hread
    obtain ⟨_, hword, -⟩ := bind_eq_ok.1 hid
    rcases token with ⟨word | text | c, line⟩
    · exact ⟨word, line, more, rfl⟩
    · cases hword
    · cases hword

theorem readEntries_separators (h : ∀ token ∈ separators, token.isSeparator = true)
    (more : List Token) :
    readEntries true last opened fields (separators ++ more) =
      readEntries true last opened fields more := by
  rw [readEntries_eq, readEntries_eq, skipSeparators_append h]

/-- One entry is read and checked, and the others after it. -/
theorem IsEntry.readEntries (h : IsEntry last fields tokens field rest) :
    readEntries true last opened fields tokens =
      checkNew fields field >>= fun _ => readEntries true last opened (fields ++ [field]) rest := by
  obtain ⟨word, line, after, rfl⟩ := h.exists_word
  have hskip : skipSeparators (⟨.word word, line⟩ :: after) = ⟨.word word, line⟩ :: after := rfl
  rw [readEntries_eq, hskip]
  simp only [reduceCtorEq, if_false, h.readEntry]
  rfl

/-- Fields apart that the tokens list are read and taken. -/
theorem Lists.readEntries_eq (h : Lists last tokens fields rest) (hapart : Field.Apart fields) :
    readEntries true last opened [] tokens = readEntries true last opened fields rest := by
  induction h with
  | start => rfl
  | entry _ hseparators hentry ih =>
    obtain ⟨hapart, hnew⟩ := apart_append_singleton_iff.1 hapart
    rw [ih hapart, readEntries_separators hseparators, hentry.readEntries, hnew]
    rfl

/-- Fields apart that the tokens list up to a closing parenthesis are accepted. -/
theorem Lists.readEntries_close {line : Nat}
    (h : Lists last tokens fields (separators ++ ⟨.mark ')', line⟩ :: rest))
    (hseparators : ∀ token ∈ separators, token.isSeparator = true)
    (hapart : Field.Apart fields) :
    readEntries true last opened [] tokens = .ok (fields, rest) := by
  have hclose : skipSeparators (⟨.mark ')', line⟩ :: rest) = ⟨.mark ')', line⟩ :: rest := rfl
  rw [h.readEntries_eq hapart, readEntries_separators hseparators, Grammar.readEntries_eq, hclose]
  rfl

/-- A type alone after the greatest id repeats it. -/
theorem Lists.readEntries_greatest {type : String} {line : Nat}
    (h : Lists last tokens fields (separators ++ ⟨.word type, line⟩ :: rest))
    (hseparators : ∀ token ∈ separators, token.isSeparator = true)
    (hcolon : Lacks (.mark ':') rest) (hapart : Field.Apart fields)
    (hlast : fields.getLast? = some before) (hmax : before.id.toInt = 32767) :
    readEntries true last opened [] tokens =
      .error ⟨line, .repeated (.fieldId before.id before.name) before.line⟩ := by
  have hfind : fields.find? (·.id == before.id) = some before :=
    (Lookup.find?_eq_some_iff hapart.ids).2 ⟨List.mem_of_getLast? hlast, rfl⟩
  have hskip : skipSeparators (⟨.word type, line⟩ :: rest) = ⟨.word type, line⟩ :: rest := rfl
  rw [h.readEntries_eq hapart, readEntries_separators hseparators, Grammar.readEntries_eq, hskip]
  simp only [reduceCtorEq, if_false, readEntry_of_lacks hcolon, readBareException, expectWord,
    bind, Except.bind, nextId_of_greatest hlast hmax, checkNew, hfind]

/-- A field is refused because it repeats an earlier one, in its id or its name. -/
def Repeats (violation : Violation) : Prop :=
  ∃ earlier, ∀ document,
    violation.rule.category document = .duplicateMember .field ⟨document, earlier⟩

theorem exists_repeated_of_checkNew (h : checkNew fields field ≠ .ok ()) :
    ∃ violation, checkNew fields field = .error violation ∧ Repeats violation := by
  unfold checkNew at h ⊢
  split
  · exact ⟨_, rfl, _, fun _ => rfl⟩
  · split
    · exact ⟨_, rfl, _, fun _ => rfl⟩
    · simp_all

/-- A list of fields that are not apart is refused for it. -/
theorem Lists.exists_repeated (h : Lists last tokens fields rest) (hapart : ¬Field.Apart fields) :
    ∃ violation, readEntries true last opened [] tokens = .error violation ∧ Repeats violation := by
  induction h with
  | start => exact absurd apart_nil hapart
  | @entry fields field _ _ _ h hseparators hentry ih =>
    by_cases hfirst : Field.Apart fields
    · have hnew : checkNew fields field ≠ .ok () :=
        fun hnew => hapart (apart_append_singleton_iff.2 ⟨hfirst, hnew⟩)
      obtain ⟨violation, hviolation, hrepeats⟩ := exists_repeated_of_checkNew hnew
      refine ⟨violation, ?_, hrepeats⟩
      rw [h.readEntries_eq hfirst, readEntries_separators hseparators, hentry.readEntries, hviolation]
      rfl
    · exact ih hfirst

theorem exists_separators (tokens : List Token) :
    ∃ separators, (∀ token ∈ separators, token.isSeparator = true) ∧
      separators ++ skipSeparators tokens = tokens :=
  ⟨tokens.takeWhile Token.isSeparator, List.all_eq_true.1 List.all_takeWhile,
    List.takeWhile_append_dropWhile⟩

/-- The entries that are read go on the list of those before them, up to the closing parenthesis. -/
theorem Lists.of_readEntries {taken : List Field} (h : Lists last tokens taken more)
    (hread : readEntries true last opened taken more = .ok (fields, rest)) :
    ∃ separators line, (∀ token ∈ separators, token.isSeparator = true) ∧
      Lists last tokens fields (separators ++ ⟨.mark ')', line⟩ :: rest) := by
  fun_induction readEntries true last opened taken more with
  | case1 => cases hread
  | case2 taken more token after hskip hclose =>
    obtain ⟨separators, hseparators, hmore⟩ := exists_separators more
    obtain ⟨lexeme, line⟩ := token
    obtain rfl : lexeme = .mark ')' := hclose
    rw [hskip] at hmore
    cases hread
    exact ⟨separators, line, hseparators, hmore ▸ h⟩
  | case3 => cases hread
  | case4 => cases hread
  | case5 taken more token after hskip hclose field remaining hentry hnew ih =>
    obtain ⟨separators, hseparators, hmore⟩ := exists_separators more
    rw [hskip] at hmore
    have hid := (checkNew_eq_ok_iff.1 hnew).1
    exact ih ((hmore ▸ h).entry hseparators (isEntry_of_readEntry hentry hid)) hread

/-- A list of exceptions is accepted exactly if it is entries up to a closing parenthesis that share
no id and no name, where a type alone is the name too and has exactly the following id. A type alone
after the greatest id is refused for repeating it, unless two entries before it repeat each other. -/
theorem readEntries_throws (last opened : Nat) (tokens : List Token) :
    (∀ fields rest, readEntries true last opened [] tokens = .ok (fields, rest) ↔
      Field.Apart fields ∧ ∃ separators line,
        (∀ token ∈ separators, token.isSeparator = true) ∧
        Lists last tokens fields (separators ++ ⟨.mark ')', line⟩ :: rest)) ∧
    ∀ (fields : List Field) (before : Field) (separators rest : List Token) (type : String)
      (line : Nat), Lists last tokens fields (separators ++ ⟨.word type, line⟩ :: rest) →
      (∀ token ∈ separators, token.isSeparator = true) → Lacks (.mark ':') rest →
      fields.getLast? = some before → before.id.toInt = 32767 →
      ∃ violation, readEntries true last opened [] tokens = .error violation ∧
        Repeats violation ∧ (Field.Apart fields →
          violation = ⟨line, .repeated (.fieldId before.id before.name) before.line⟩) := by
  constructor
  · intro fields rest
    constructor
    · intro h
      exact ⟨readEntries_apart apart_nil h, Lists.start.of_readEntries h⟩
    · rintro ⟨hapart, separators, line, hseparators, h⟩
      exact h.readEntries_close hseparators hapart
  · intro fields before separators rest type line h hseparators hcolon hlast hmax
    by_cases hapart : Field.Apart fields
    · refine ⟨_, h.readEntries_greatest hseparators hcolon hapart hlast hmax, ?_, fun _ => rfl⟩
      exact ⟨_, fun _ => rfl⟩
    · obtain ⟨violation, hviolation, hrepeats⟩ : ∃ violation,
          readEntries true last opened [] tokens = .error violation ∧ Repeats violation :=
        h.exists_repeated hapart
      exact ⟨violation, hviolation, hrepeats, fun h => absurd h hapart⟩

/-- An exception with the greatest id. -/
def late : Field := ⟨32767, .unstated, "Late", "late", none, 0⟩

/-- The exceptions `32767: Late late, Gone`, the second one on a line of its own. -/
def crowded : List Token :=
  [⟨.word "32767", 0⟩, ⟨.mark ':', 0⟩, ⟨.word "Late", 0⟩, ⟨.word "late", 0⟩, ⟨.mark ',', 0⟩,
    ⟨.word "Gone", 1⟩, ⟨.mark ')', 1⟩]

theorem readEntries_throws_crowded :
    readEntries true 1 0 [] crowded = .error ⟨1, .repeated (.fieldId 32767 "late") 0⟩ := by
  have hread : readField 1 crowded = .ok (late, crowded.drop 4) := by decide +kernel
  have hstart : Lists 1 crowded [] ([] ++ crowded) := .start
  have hlate := hstart.entry (by simp) (.numbered (by simp [Lacks]) hread)
  have hone : Field.Apart ([] ++ [late]) := apart_append_singleton_iff.2 ⟨apart_nil, rfl⟩
  obtain ⟨violation, hviolation, -, hexact⟩ := (readEntries_throws 1 0 crowded).2 ([] ++ [late]) late
    [⟨.mark ',', 0⟩] [⟨.mark ')', 1⟩] "Gone" 1 hlate (by decide) (by simp [Lacks]) rfl (by decide)
  rw [hviolation, hexact hone]
  rfl

/-- Ids go on from the one that is written. -/
example : readEntries true 0 0 []
    [⟨.word "Gone", 0⟩, ⟨.mark ',', 0⟩, ⟨.word "-3", 0⟩, ⟨.mark ':', 0⟩, ⟨.word "Late", 0⟩,
      ⟨.word "late", 0⟩, ⟨.word "Lost", 0⟩, ⟨.mark ')', 0⟩] =
    .ok ([⟨1, .unstated, "Gone", "Gone", none, 0⟩, ⟨-3, .unstated, "Late", "late", none, 0⟩,
      ⟨-2, .unstated, "Lost", "Lost", none, 0⟩], []) := by
  decide +kernel

end ThriftIdl.Grammar

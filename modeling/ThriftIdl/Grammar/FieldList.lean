import ThriftIdl.Grammar.Field

/-!
Lists of fields: the body of a struct or exception, and lists in parentheses. Separators between
the entries may be left out or repeated.
-/

namespace ThriftIdl.Grammar

theorem readFieldId_leaves {last : Nat} {tokens rest : List Token} {id : Int16 × Nat}
    (h : readFieldId last tokens = .ok (id, rest)) : Leaves tokens rest := by
  obtain ⟨⟨word, middle⟩, hword, h⟩ := bind_eq_ok.1 h
  dsimp only at h
  split at h
  · cases h
  · split at h
    · next heat =>
      cases h
      exact (expectWord_leaves hword).of_suffix (eat_suffix heat)
    · cases h

theorem readFieldType_leaves {last : Nat} {tokens rest : List Token}
    {type : Requiredness × Word} (h : readFieldType last tokens = .ok (type, rest)) :
    Leaves tokens rest := by
  obtain ⟨⟨word, middle⟩, hword, h⟩ := bind_eq_ok.1 h
  dsimp only at h
  split at h
  · cases h
    exact expectWord_leaves hword
  · obtain ⟨⟨type, after⟩, htype, h⟩ := bind_eq_ok.1 h
    cases h
    exact (expectWord_leaves hword).of_suffix (expectWord_leaves htype).suffix

theorem readDefault_suffix {last : Nat} {tokens rest : List Token} {value : Option String}
    (h : readDefault last tokens = .ok (value, rest)) : rest <:+ tokens := by
  unfold readDefault at h
  split at h
  · next heat =>
    obtain ⟨⟨value, after⟩, hvalue, h⟩ := bind_eq_ok.1 h
    cases h
    exact (readValue_leaves hvalue).suffix.trans (eat_suffix heat)
  · next heat =>
    cases h
    exact eat_suffix heat

theorem readField_leaves {last : Nat} {tokens rest : List Token} {field : Field}
    (h : readField last tokens = .ok (field, rest)) : Leaves tokens rest := by
  obtain ⟨⟨⟨id, line⟩, afterId⟩, hid, h⟩ := bind_eq_ok.1 h
  obtain ⟨⟨⟨requiredness, type⟩, afterType⟩, htype, h⟩ := bind_eq_ok.1 h
  obtain ⟨⟨name, afterName⟩, hname, h⟩ := bind_eq_ok.1 h
  obtain ⟨_, _, h⟩ := bind_eq_ok.1 h
  obtain ⟨⟨default?, after⟩, hdefault, h⟩ := bind_eq_ok.1 h
  cases h
  exact (((readFieldId_leaves hid).of_suffix (readFieldType_leaves htype).suffix).of_suffix
    (expectWord_leaves hname).suffix).of_suffix (readDefault_suffix hdefault)

theorem readEntry_leaves {bare : Bool} {last : Nat} {taken : List Field}
    {tokens rest : List Token} {field : Field}
    (h : readEntry bare last taken tokens = .ok (field, rest)) : Leaves tokens rest := by
  unfold readEntry at h
  split at h
  · obtain ⟨⟨type, after⟩, htype, h⟩ := bind_eq_ok.1 h
    cases h
    exact expectWord_leaves htype
  · exact readField_leaves h

set_option linter.unusedVariables false in
/-- The fields of a body, after those already taken. -/
def readFields (last : Nat) (taken : List Field) (tokens : List Token) :
    Reading (List Field) :=
  match hskip : skipSeparators tokens with
  | [] => .ok taken
  | token :: rest =>
    match hread : readField last (token :: rest) with
    | .error violation => .error violation
    | .ok (field, after) =>
      match checkNew taken field with
      | .error violation => .error violation
      | .ok () => readFields last (taken ++ [field]) after
termination_by tokens.length
decreasing_by
  exact ((readField_leaves hread).after_suffix (hskip ▸ skipSeparators_suffix tokens)).length_lt

set_option linter.unusedVariables false in
/-- The entries of a list up to its closing parenthesis, after those already taken, and the
tokens that follow. `opened` is the line to report if the list is not closed. -/
def readEntries (bare : Bool) (last opened : Nat) (taken : List Field) (tokens : List Token) :
    Reading (List Field × List Token) :=
  match hskip : skipSeparators tokens with
  | [] => misshapen .function opened .parametersNotClosed
  | token :: rest =>
    if token.lexeme = .mark ')' then .ok (taken, rest)
    else
      match hread : readEntry bare last taken (token :: rest) with
      | .error violation => .error violation
      | .ok (field, after) =>
        match checkNew taken field with
        | .error violation => .error violation
        | .ok () => readEntries bare last opened (taken ++ [field]) after
termination_by tokens.length
decreasing_by
  exact ((readEntry_leaves hread).after_suffix (hskip ▸ skipSeparators_suffix tokens)).length_lt

theorem readEntries_leaves {bare : Bool} {last opened : Nat} {taken fields : List Field}
    {tokens rest : List Token}
    (h : readEntries bare last opened taken tokens = .ok (fields, rest)) :
    Leaves tokens rest := by
  fun_induction readEntries bare last opened taken tokens with
  | case1 => cases h
  | case2 taken tokens token after hskip =>
    cases h
    exact (leaves_cons List.suffix_rfl).after_suffix (hskip ▸ skipSeparators_suffix tokens)
  | case3 => cases h
  | case4 => cases h
  | case5 taken tokens token after hskip _ field remaining hread _ ih =>
    have hentry := (readEntry_leaves hread).after_suffix (hskip ▸ skipSeparators_suffix tokens)
    exact hentry.of_suffix (ih h).suffix

end ThriftIdl.Grammar

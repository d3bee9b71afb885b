import ThriftIdl.Grammar.Definition

/-!
The readers of lists and blocks, one step at a time. Each reads an item, checks it against those
before it and goes on with it taken.
-/

namespace ThriftIdl.Grammar

/-- The tokens do not start with the lexeme. -/
def Lacks (lexeme : Lexeme) (tokens : List Token) : Prop :=
  ∀ token ∈ tokens.head?, token.lexeme ≠ lexeme

theorem lacks_nil (lexeme : Lexeme) : Lacks lexeme [] := by simp [Lacks]

theorem eat_of_lacks {lexeme : Lexeme} {tokens : List Token} (h : Lacks lexeme tokens) :
    eat lexeme tokens = (false, tokens) := by
  cases tokens with
  | nil => rfl
  | cons token rest => rw [eat, if_neg (h token rfl)]

theorem eat_of_eq (lexeme : Lexeme) (number : Nat) (rest : List Token) :
    eat lexeme (⟨lexeme, number⟩ :: rest) = (true, rest) := by
  rw [eat, if_pos rfl]

theorem readFields_eq (last : Nat) (taken : List Field) (tokens : List Token) :
    readFields last taken tokens =
      match skipSeparators tokens with
      | [] => .ok taken
      | token :: rest =>
        readField last (token :: rest) >>= fun (field, after) =>
          checkNew taken field >>= fun _ => readFields last (taken ++ [field]) after := by
  rw [readFields]
  split
  · next hskip => rw [hskip]
  · next token rest hskip =>
    rw [hskip]
    split
    · next hread => simp only [hread, bind, Except.bind]
    · next hread =>
      simp only [hread, bind, Except.bind]
      split
      · next hnew => rw [hnew]
      · next hnew => rw [hnew]

theorem readEntries_eq (bare : Bool) (last opened : Nat) (taken : List Field)
    (tokens : List Token) :
    readEntries bare last opened taken tokens =
      match skipSeparators tokens with
      | [] => misshapen .function opened .parametersNotClosed
      | token :: rest =>
        if token.lexeme = .mark ')' then .ok (taken, rest)
        else
          readEntry bare last taken (token :: rest) >>= fun (field, after) =>
            checkNew taken field >>= fun _ =>
              readEntries bare last opened (taken ++ [field]) after := by
  rw [readEntries]
  split
  · next hskip => rw [hskip]
  · next token rest hskip =>
    rw [hskip]
    split
    · next hclose => simp only [hclose, if_true]
    · next hclose =>
      simp only [hclose, if_false]
      split
      · next hread => simp only [hread, bind, Except.bind]
      · next hread =>
        simp only [hread, bind, Except.bind]
        split
        · next hnew => rw [hnew]
        · next hnew => rw [hnew]

theorem readFunctions_eq (last : Nat) (taken : List Function) (tokens : List Token) :
    readFunctions last taken tokens =
      match skipSeparators tokens with
      | [] => .ok taken
      | token :: rest =>
        readFunction last (token :: rest) >>= fun (function, after) =>
          checkNewFunction taken function >>= fun _ =>
            readFunctions last (taken ++ [function]) after := by
  rw [readFunctions]
  split
  · next hskip => rw [hskip]
  · next token rest hskip =>
    rw [hskip]
    split
    · next hread => simp only [hread, bind, Except.bind]
    · next hread =>
      simp only [hread, bind, Except.bind]
      split
      · next hnew => rw [hnew]
      · next hnew => rw [hnew]

theorem readEnumValues_cons (taken : List EnumValue) (token : Token) (rest : List Token) :
    readEnumValues taken (token :: rest) =
      if token.isSeparator then readEnumValues taken rest
      else
        readEnumValue taken token rest >>= fun (value, after) =>
          readEnumValues (taken ++ [value]) after := by
  rw [readEnumValues]
  split
  · rfl
  · split
    · next hread => simp only [hread, bind, Except.bind]
    · next hread => simp only [hread, bind, Except.bind]

/-- The pair with one more token in its first part. -/
def consFirst (token : Token) (pair : List Token × List Token) : List Token × List Token :=
  (token :: pair.1, pair.2)

theorem splitGroup_of_open {token : Token} (h : token.lexeme = .mark '{') (depth : Nat)
    (rest : List Token) :
    splitGroup depth (token :: rest) = (splitGroup (depth + 1) rest).map (consFirst token) := by
  rw [splitGroup.eq_def]
  exact if_pos h

theorem splitGroup_of_close_zero {token : Token} (h : token.lexeme = .mark '}')
    (rest : List Token) : splitGroup 0 (token :: rest) = some ([token], rest) := by
  rw [splitGroup.eq_def]
  simp [h]

theorem splitGroup_of_close_succ {token : Token} (h : token.lexeme = .mark '}') (depth : Nat)
    (rest : List Token) :
    splitGroup (depth + 1) (token :: rest) = (splitGroup depth rest).map (consFirst token) := by
  rw [splitGroup.eq_def]
  simp [h]
  rfl

theorem splitGroup_of_other {token : Token} (hopen : token.lexeme ≠ .mark '{')
    (hclose : token.lexeme ≠ .mark '}') (depth : Nat) (rest : List Token) :
    splitGroup depth (token :: rest) = (splitGroup depth rest).map (consFirst token) := by
  rw [splitGroup.eq_def]
  simp only [if_neg hopen, if_neg hclose]
  rfl

theorem blockPart_of_open {token : Token} (h : token.lexeme = .mark '{') (depth : Nat)
    (rest : List Token) :
    blockPart depth (token :: rest) = (blockPart (depth + 1) rest).cons token := by
  rw [blockPart.eq_def]
  exact if_pos h

theorem blockPart_of_close_zero {token : Token} (h : token.lexeme = .mark '}')
    (rest : List Token) : blockPart 0 (token :: rest) = .closed [] token.line rest := by
  rw [blockPart.eq_def]
  simp [h]

theorem blockPart_of_close_succ {token : Token} (h : token.lexeme = .mark '}') (depth : Nat)
    (rest : List Token) :
    blockPart (depth + 1) (token :: rest) = (blockPart depth rest).cons token := by
  rw [blockPart.eq_def]
  simp [h]

theorem blockPart_of_other {token : Token} (hopen : token.lexeme ≠ .mark '{')
    (hclose : token.lexeme ≠ .mark '}') (depth : Nat) (rest : List Token) :
    blockPart depth (token :: rest) = (blockPart depth rest).cons token := by
  rw [blockPart.eq_def]
  simp only [if_neg hopen, if_neg hclose]

/-- Tokens without braces leave an open block as it is. -/
theorem blockPart_of_plain {tokens : List Token}
    (h : ∀ token ∈ tokens, token.lexeme ≠ .mark '{' ∧ token.lexeme ≠ .mark '}') (depth : Nat) :
    blockPart depth tokens = .opened depth tokens := by
  induction tokens with
  | nil => rfl
  | cons token rest ih =>
    rw [List.forall_mem_cons] at h
    rw [blockPart_of_other h.1.1 h.1.2, ih h.2]
    rfl

/-- The base of a definition of the kind: only services have one. -/
def readBaseOf (kind : Kind) (start : Nat) (tokens : List Token) :
    Reading (Option String × List Token) :=
  if kind = .service then readBase start tokens else .ok (none, tokens)

/-- A definition with a block is read in four steps: its name, its base, its block and the body in
the block. -/
theorem readBlockDefinition_eq (kind : Kind) (taken : List Definition) (start : Nat)
    (tokens : List Token) (lines : List Line) :
    readBlockDefinition kind taken start tokens lines =
      readBlockName kind taken start tokens >>= fun (declared, rest) =>
        readBaseOf kind start rest >>= fun (base?, rest) =>
          readBlock kind start rest lines >>= fun block =>
            readBody kind base? block >>= fun body =>
              .ok ⟨⟨declared, body⟩, block.used⟩ := by
  rw [readBlockDefinition]
  apply congrArg
  funext ⟨declared, rest⟩
  dsimp only
  rw [readBaseOf]
  split
  · rfl
  · rfl

theorem readBlockDefinition_eq_ok {kind : Kind} {taken : List Definition} {start : Nat}
    {tokens : List Token} {lines : List Line} {extent : Extent} :
    readBlockDefinition kind taken start tokens lines = .ok extent ↔
      ∃ declared afterName base? afterBase block body,
        readBlockName kind taken start tokens = .ok (declared, afterName) ∧
        readBaseOf kind start afterName = .ok (base?, afterBase) ∧
        readBlock kind start afterBase lines = .ok block ∧
        readBody kind base? block = .ok body ∧ extent = ⟨⟨declared, body⟩, block.used⟩ := by
  simp only [readBlockDefinition_eq, bind_eq_ok, Prod.exists]
  constructor
  · rintro ⟨declared, afterName, hname, base?, afterBase, hbase, block, hblock, body, hbody, h⟩
    cases h
    exact ⟨declared, afterName, base?, afterBase, block, body, hname, hbase, hblock, hbody, rfl⟩
  · rintro ⟨declared, afterName, base?, afterBase, block, body, hname, hbase, hblock, hbody, rfl⟩
    exact ⟨declared, afterName, hname, base?, afterBase, hbase, block, hblock, body, hbody, rfl⟩

end ThriftIdl.Grammar

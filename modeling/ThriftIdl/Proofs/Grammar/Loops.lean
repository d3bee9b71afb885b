import ThriftIdl.Proofs.Grammar.Seams

/-!
Separators in a body. The members of every body are read in a loop: separators are skipped, a member
is read and taken, and reading goes on after it. Separators between members make no difference, and
those in a body that is accepted can be left out.
-/

namespace ThriftIdl.Grammar

/-- A reader of items with separators between them, and the reader of one item after those taken. -/
structure Loop (α : Type) where
  all : List α → List Token → Reading (List α)
  item : List α → List Token → Reading (α × List Token)
  all_eq : ∀ taken tokens, all taken tokens =
    match skipSeparators tokens with
    | [] => .ok taken
    | token :: rest =>
      item taken (token :: rest) >>= fun (value, after) => all (taken ++ [value]) after
  leaves : ∀ {taken tokens value rest}, item taken tokens = .ok (value, rest) → Leaves tokens rest

/-- The fields of a body. -/
def fieldLoop (last : Nat) : Loop Field where
  all := readFields last
  item taken tokens := readField last tokens >>= fun (field, after) =>
    checkNew taken field >>= fun _ => .ok (field, after)
  all_eq taken tokens := by
    rw [readFields_eq]
    cases skipSeparators tokens with
    | nil => rfl
    | cons token rest =>
      simp only [bind_assoc]
      rfl
  leaves h := by
    obtain ⟨⟨field, after⟩, hread, h⟩ := bind_eq_ok.1 h
    obtain ⟨_, -, h⟩ := bind_eq_ok.1 h
    cases h
    exact readField_leaves hread

/-- The functions of a body. -/
def functionLoop (last : Nat) : Loop Function where
  all := readFunctions last
  item taken tokens := readFunction last tokens >>= fun (function, after) =>
    checkNewFunction taken function >>= fun _ => .ok (function, after)
  all_eq taken tokens := by
    rw [readFunctions_eq]
    cases skipSeparators tokens with
    | nil => rfl
    | cons token rest =>
      simp only [bind_assoc]
      rfl
  leaves h := by
    obtain ⟨⟨function, after⟩, hread, h⟩ := bind_eq_ok.1 h
    obtain ⟨_, -, h⟩ := bind_eq_ok.1 h
    cases h
    exact readFunction_leaves hread

/-- The value of an enum that the tokens start with. -/
def readNextEnumValue (taken : List EnumValue) : List Token → Reading (EnumValue × List Token)
  | [] => .error ⟨0, .noTokens⟩
  | token :: rest => readEnumValue taken token rest

theorem readEnumValues_eq (taken : List EnumValue) (tokens : List Token) :
    readEnumValues taken tokens =
      match skipSeparators tokens with
      | [] => .ok taken
      | token :: rest =>
        readNextEnumValue taken (token :: rest) >>= fun (value, after) =>
          readEnumValues (taken ++ [value]) after := by
  induction tokens with
  | nil => rw [readEnumValues]; rfl
  | cons token tokens ih =>
    rw [readEnumValues_cons, skipSeparators, List.dropWhile_cons]
    split
    · exact ih
    · rfl

/-- The values of an enum's body. -/
def enumLoop : Loop EnumValue where
  all := readEnumValues
  item := readNextEnumValue
  all_eq := readEnumValues_eq
  leaves {taken tokens value rest} h := by
    cases tokens with
    | nil => cases h
    | cons token tokens => exact leaves_cons (readEnumValue_suffix h)

/-- The text of a senum that the tokens start with. -/
def readNextSenumValue (taken : List Quoted) : List Token → Reading (Quoted × List Token)
  | [] => .error ⟨0, .noTokens⟩
  | token :: rest =>
    match token.lexeme with
    | .literal text =>
      let value := String.ofList (unquote text.toList)
      match taken.find? (·.text == value) with
      | some earlier => .error ⟨token.line, .repeated (.senumText value) earlier.line⟩
      | none => .ok (⟨value, token.line⟩, rest)
    | _ => misshapen .senumValue token.line (.expected .quotedString (some token.text))

theorem readSenumValues_eq (taken : List Quoted) (tokens : List Token) :
    readSenumValues taken tokens =
      match skipSeparators tokens with
      | [] => .ok taken
      | token :: rest =>
        readNextSenumValue taken (token :: rest) >>= fun (value, after) =>
          readSenumValues (taken ++ [value]) after := by
  induction tokens with
  | nil => rfl
  | cons token tokens ih =>
    rw [readSenumValues, skipSeparators, List.dropWhile_cons]
    split
    · exact ih
    · rcases token with ⟨text | text | c, line⟩
      · rfl
      · simp only [readNextSenumValue]
        cases taken.find? (·.text == String.ofList (unquote text.toList)) with
        | some earlier => rfl
        | none => rfl
      · rfl

/-- The texts of a senum's body. -/
def senumLoop : Loop Quoted where
  all := readSenumValues
  item := readNextSenumValue
  all_eq := readSenumValues_eq
  leaves {taken tokens value rest} h := by
    rcases tokens with _ | ⟨⟨text | text | c, line⟩, tokens⟩
    · cases h
    · cases h
    · simp only [readNextSenumValue] at h
      split at h
      · cases h
      · cases h
        exact leaves_cons List.suffix_rfl
    · cases h

/-- What the first loop reads before or after a seam, the second reads on the other side. -/
def Loop.Alike {α : Type} (old new : List Token) (first second : Loop α) : Prop :=
  ∀ ⦃taken token left right value rest⦄, token.isSeparator = false →
    Twin old new (token :: left) (token :: right) →
    first.item taken (token :: left) = .ok (value, rest) →
    ∃ more, second.item taken (token :: right) = .ok (value, more) ∧ Twin old new rest more

namespace Loop

variable {α : Type} {old new : List Token} {first second : Loop α} {items : List α}

/-- If the one side goes on after the seam, its items are those of the other. -/
theorem all_of_twin {left right : List Token} {taken : List α} (seam : Seam old new)
    (hitem : Loop.Alike old new first second)
    (hold : old ≠ []) (h : Twin old new left right)
    (hread : first.all taken left = .ok items) : second.all taken right = .ok items := by
  rw [first.all_eq] at hread
  rw [second.all_eq]
  rcases skipSeparators_twin seam h with ⟨hleft, hright, -⟩ |
    ⟨token, rest, more, hleft, hright, hseparator, htwin⟩
  · rw [hleft] at hread
    rw [hright hold]
    exact hread
  · rw [hleft] at hread
    rw [hright]
    obtain ⟨⟨value, after⟩, hvalue, hread⟩ := bind_eq_ok.1 hread
    obtain ⟨after', hvalue', hafter⟩ := hitem hseparator htwin hvalue
    exact bind_eq_ok.2 ⟨_, hvalue', all_of_twin seam hitem hold hafter hread⟩
termination_by left.length
decreasing_by
  exact ((first.leaves hvalue).after_suffix (hleft ▸ skipSeparators_suffix left)).length_lt

/-- If the one side ends at the seam, the other goes on there with the items of the first. -/
theorem all_of_ended {left right : List Token} {taken : List α} (seam : Seam [] new)
    (hitem : Loop.Alike [] new first second)
    (h : Twin [] new left right) (hread : first.all taken left = .ok items) :
    second.all taken right = second.all items new := by
  rw [first.all_eq] at hread
  rw [second.all_eq]
  rcases skipSeparators_twin seam h with ⟨hleft, -, hright⟩ |
    ⟨token, rest, more, hleft, hright, hseparator, htwin⟩
  · rw [hleft] at hread
    cases hread
    rw [hright rfl, second.all_eq items new]
  · rw [hleft] at hread
    rw [hright]
    obtain ⟨⟨value, after⟩, hvalue, hread⟩ := bind_eq_ok.1 hread
    obtain ⟨after', hvalue', hafter⟩ := hitem hseparator htwin hvalue
    simp only [hvalue', bind, Except.bind]
    exact all_of_ended seam hitem hafter hread
termination_by left.length
decreasing_by
  exact ((first.leaves hvalue).after_suffix (hleft ▸ skipSeparators_suffix left)).length_lt

end Loop

variable {old new : List Token}

theorem fieldLoop_twin (seam : Seam old new) (last last' : Nat) :
    Loop.Alike old new (fieldLoop last) (fieldLoop last') := by
  intro taken token left right value rest _ h hread
  obtain ⟨⟨field, after⟩, hfield, hread⟩ := bind_eq_ok.1 hread
  obtain ⟨_, hnew, hread⟩ := bind_eq_ok.1 hread
  cases hread
  obtain ⟨more, hfield', hmore⟩ := readField_twin seam h hfield
  exact ⟨more, bind_eq_ok.2 ⟨_, hfield', bind_eq_ok.2 ⟨_, hnew, rfl⟩⟩, hmore⟩

theorem functionLoop_twin (seam : Seam old new) (last last' : Nat) :
    Loop.Alike old new (functionLoop last) (functionLoop last') := by
  intro taken token left right value rest hseparator h hread
  obtain ⟨⟨function, after⟩, hfunction, hread⟩ := bind_eq_ok.1 hread
  obtain ⟨_, hnew, hread⟩ := bind_eq_ok.1 hread
  cases hread
  obtain ⟨more, hfunction', hmore⟩ := readFunction_twin seam hseparator h hfunction
  exact ⟨more, bind_eq_ok.2 ⟨_, hfunction', bind_eq_ok.2 ⟨_, hnew, rfl⟩⟩, hmore⟩

/-- The name of a value is shared, and so is what the value goes on with. -/
theorem enumLoop_twin (seam : Seam old new) : Loop.Alike old new enumLoop enumLoop := by
  intro taken token left right value rest hseparator h hread
  obtain ⟨more, heq, hmore, -⟩ := h.of_cons seam hseparator
  cases heq
  rcases token with ⟨text | text | c, line⟩
  · have hvalue : readEnumValue taken ⟨.word text, line⟩ left = .ok (value, rest) := hread
    exact readEnumValue_twin seam (hmore (by simp) (by simp)) hvalue
  · cases hread
  · cases hread

theorem senumLoop_twin (seam : Seam old new) : Loop.Alike old new senumLoop senumLoop := by
  intro taken token left right value rest hseparator h hread
  obtain ⟨more, heq, hmore, -⟩ := h.of_cons seam hseparator
  cases heq
  rcases token with ⟨text | text | c, line⟩
  · cases hread
  · simp only [senumLoop, readNextSenumValue] at hread ⊢
    split at hread
    · cases hread
    · next hfind =>
      cases hread
      exact ⟨right, rfl, hmore (by simp) (by simp)⟩
  · cases hread

/-- Every body is read in a loop. -/
theorem exists_loop (kind : Kind) :
    ∃ (α : Type) (loop : Nat → Loop α) (wrap : Option String → List α → Body),
      (∀ base? block, readBody kind base? block =
        (loop block.last).all [] block.tokens >>= fun items => .ok (wrap base? items)) ∧
      ∀ {old new}, Seam old new → ∀ last last', Loop.Alike old new (loop last) (loop last') := by
  have hfields : ∀ wrap : List Field → Body,
      (∀ base? block, readBody kind base? block =
        readFields block.last [] block.tokens >>= fun fields => .ok (wrap fields)) →
      ∃ (α : Type) (loop : Nat → Loop α) (wrap : Option String → List α → Body),
        (∀ base? block, readBody kind base? block =
          (loop block.last).all [] block.tokens >>= fun items => .ok (wrap base? items)) ∧
        ∀ {old new}, Seam old new → ∀ last last', Loop.Alike old new (loop last) (loop last') :=
    fun wrap hbody => ⟨Field, fieldLoop, fun _ => wrap, hbody, fieldLoop_twin⟩
  cases kind with
  | enum =>
    exact ⟨EnumValue, fun _ => enumLoop, fun _ => .enum, fun _ _ => rfl,
      fun seam _ _ => enumLoop_twin seam⟩
  | senum =>
    exact ⟨Quoted, fun _ => senumLoop, fun _ texts => .senum (texts.map (·.text)),
      fun _ _ => rfl, fun seam _ _ => senumLoop_twin seam⟩
  | service =>
    exact ⟨Function, functionLoop, .service, fun _ _ => rfl, functionLoop_twin⟩
  | exception => exact hfields .exception fun _ _ => rfl
  | struct => exact hfields .struct fun _ _ => rfl
  | const => exact hfields .struct fun _ _ => rfl
  | typedef => exact hfields .struct fun _ _ => rfl

variable {shared separators more : List Token}

theorem skipSeparators_append (h : ∀ token ∈ separators, token.isSeparator = true)
    (more : List Token) : skipSeparators (separators ++ more) = skipSeparators more := by
  rw [skipSeparators, List.dropWhile_append_of_pos h, skipSeparators]

theorem head?_separators (h : ∀ token ∈ separators, token.isSeparator = true)
    (hne : separators ≠ []) : ∀ token ∈ (separators ++ more).head?, token.isSeparator = true := by
  obtain ⟨first, rest, rfl⟩ := List.exists_cons_of_ne_nil hne
  intro token htoken
  cases htoken
  exact h first List.mem_cons_self

theorem fresh_separators (h : ∀ token ∈ separators, token.isSeparator = true)
    (hne : separators ≠ []) : Fresh (separators ++ more) := by
  have hhead := @head?_separators separators more h hne
  constructor
  all_goals
    intro token htoken hlexeme
    have hseparator := hhead token htoken
    simp [Token.isSeparator, hlexeme] at hseparator

/-- Separators in a body that is read can be left out, unless what follows them then continues an
item. They do not stand in a value, since no brace is open before them. -/
theorem readBody_of_separators {kind : Kind} {base? : Option String} {last used : Nat} {body : Body}
    (hshared : Balanced shared) (hseparators : ∀ token ∈ separators, token.isSeparator = true)
    (hmore : Fresh more)
    (h : readBody kind base? ⟨shared ++ (separators ++ more), last, used⟩ = .ok body) :
    readBody kind base? ⟨shared ++ more, last, used⟩ = .ok body := by
  by_cases hne : separators = []
  · subst hne
    exact h
  have seam : Seam (separators ++ more) more :=
    ⟨hmore, head?_separators hseparators hne, fun _ => skipSeparators_append hseparators more⟩
  obtain ⟨α, loop, wrap, hbody, halike⟩ := exists_loop kind
  rw [hbody] at h ⊢
  obtain ⟨items, hitems, h⟩ := bind_eq_ok.1 h
  refine bind_eq_ok.2 ⟨items, ?_, h⟩
  exact Loop.all_of_twin seam (halike seam last last) (by simp [hne])
    (Or.inl ⟨shared, hshared, rfl, rfl⟩) hitems

/-- After whole members separators make no difference to a body, unless what follows them then
continues an item. -/
theorem readBody_eq_of_whole {kind : Kind} {base? : Option String} {last last' used used' : Nat}
    {body : Body} (hshared : Balanced shared)
    (h : readBody kind base? ⟨shared, last, used⟩ = .ok body)
    (hseparators : ∀ token ∈ separators, token.isSeparator = true) (hmore : Fresh more) :
    readBody kind base? ⟨shared ++ (separators ++ more), last', used'⟩ =
      readBody kind base? ⟨shared ++ more, last', used'⟩ := by
  by_cases hne : separators = []
  · subst hne
    rfl
  have hends : ∀ {tokens}, Fresh tokens → Seam [] tokens := fun hfresh =>
    ⟨hfresh, by simp, fun hnil => absurd rfl hnil⟩
  have seamSeparators := hends (@fresh_separators separators more hseparators hne)
  have seamMore := hends hmore
  have htwin : ∀ tokens, Twin [] tokens shared (shared ++ tokens) := fun tokens =>
    Or.inl ⟨shared, hshared, (List.append_nil shared).symm, rfl⟩
  obtain ⟨α, loop, wrap, hbody, halike⟩ := exists_loop kind
  rw [hbody] at h
  obtain ⟨items, hitems, -⟩ := bind_eq_ok.1 h
  have hleft := Loop.all_of_ended seamSeparators (halike seamSeparators last last')
    (htwin (separators ++ more)) hitems
  have hright := Loop.all_of_ended seamMore (halike seamMore last last') (htwin more) hitems
  rw [hbody, hbody]
  dsimp only
  rw [hleft, hright, (loop last').all_eq items (separators ++ more), (loop last').all_eq items more,
    skipSeparators_append hseparators]

end ThriftIdl.Grammar

import ThriftIdl.Proofs.Grammar.Readers

/-!
Two token lists that begin alike. They part at a seam: the one goes on with separators or ends
there, the other goes on with what continues no item. What is read from the one is read from the
other, and what is left of them parts at the same seam or is the same.
-/

namespace ThriftIdl.Grammar

/-- In the tokens every brace that opens is closed and no other is closed. -/
def Balanced (tokens : List Token) : Prop := blockPart 0 tokens = .opened 0 tokens

theorem cons_eq_opened {part : BlockPart} {token : Token} {depth : Nat} {tokens : List Token}
    (h : part.cons token = .opened depth (token :: tokens)) : part = .opened depth tokens := by
  cases part with
  | opened _ _ =>
    simp only [BlockPart.cons, BlockPart.opened.injEq, List.cons.injEq, true_and] at h
    rw [h.1, h.2]
  | closed _ _ _ => cases h

theorem Balanced.tail {token : Token} {rest : List Token} (h : Balanced (token :: rest))
    (hopen : token.lexeme ≠ .mark '{') (hclose : token.lexeme ≠ .mark '}') : Balanced rest := by
  rw [Balanced, blockPart_of_other hopen hclose] at h
  exact cons_eq_opened h

/-- A group whose brace is open before tokens that close it ends in them. -/
theorem exists_splitGroup {depth : Nat} {tokens : List Token}
    (h : blockPart (depth + 1) tokens = .opened 0 tokens) :
    ∃ inner after, Balanced after ∧
      ∀ rest, splitGroup depth (tokens ++ rest) = some (inner, after ++ rest) := by
  induction tokens generalizing depth with
  | nil => cases h
  | cons token tokens ih =>
    by_cases hopen : token.lexeme = .mark '{'
    · rw [blockPart_of_open hopen] at h
      obtain ⟨inner, after, hafter, hsplit⟩ := ih (cons_eq_opened h)
      refine ⟨token :: inner, after, hafter, fun rest => ?_⟩
      rw [List.cons_append, splitGroup_of_open hopen, hsplit]
      rfl
    · by_cases hclose : token.lexeme = .mark '}'
      · rw [blockPart_of_close_succ hclose] at h
        cases depth with
        | zero =>
          refine ⟨[token], tokens, cons_eq_opened h, fun rest => ?_⟩
          rw [List.cons_append, splitGroup_of_close_zero hclose]
        | succ depth =>
          obtain ⟨inner, after, hafter, hsplit⟩ := ih (cons_eq_opened h)
          refine ⟨token :: inner, after, hafter, fun rest => ?_⟩
          rw [List.cons_append, splitGroup_of_close_succ hclose, hsplit]
          rfl
      · rw [blockPart_of_other hopen hclose] at h
        obtain ⟨inner, after, hafter, hsplit⟩ := ih (cons_eq_opened h)
        refine ⟨token :: inner, after, hafter, fun rest => ?_⟩
        rw [List.cons_append, splitGroup_of_other hopen hclose, hsplit]
        rfl

/-- Nothing that continues an item comes first. -/
structure Fresh (tokens : List Token) : Prop where
  equals : Lacks (.mark '=') tokens
  colon : Lacks (.mark ':') tokens
  throws : Lacks (.word "throws") tokens

/-- What two token lists go on with after their common beginning. The one goes on with a separator
or ends, so that no item goes on; nothing that continues an item comes first in the other; and if
the one does not end, both go on alike after separators. -/
structure Seam (old new : List Token) : Prop extends Fresh new where
  stops : ∀ token ∈ old.head?, token.isSeparator = true
  skips : old ≠ [] → skipSeparators old = skipSeparators new

/-- The token lists have a common beginning and part at the seam, or they have passed it. -/
def Twin (old new left right : List Token) : Prop :=
  (∃ shared, Balanced shared ∧ left = shared ++ old ∧ right = shared ++ new) ∨
    (old ≠ [] ∧ left = right)

section Twins

variable {old new left right rest : List Token} (seam : Seam old new)

include seam

/-- A token that is no separator comes before the seam or after it, and so on both sides. -/
theorem Twin.of_cons {token : Token} (h : Twin old new (token :: rest) right)
    (hseparator : token.isSeparator = false) :
    ∃ more, right = token :: more ∧
      (token.lexeme ≠ .mark '{' → token.lexeme ≠ .mark '}' → Twin old new rest more) ∧
      (token.lexeme = .mark '{' → rest = more ∧ old ≠ [] ∨
        ∃ shared, blockPart 1 shared = .opened 0 shared ∧ rest = shared ++ old ∧
          more = shared ++ new) := by
  rcases h with ⟨_ | ⟨first, shared⟩, hshared, hleft, rfl⟩ | ⟨hold, rfl⟩
  · have hstop := seam.stops token (by rw [← List.nil_append old, ← hleft]; rfl)
    rw [hseparator] at hstop
    cases hstop
  · cases hleft
    refine ⟨shared ++ new, rfl, fun hopen hclose => ?_, fun hopen => Or.inr ⟨shared, ?_, rfl, rfl⟩⟩
    · exact Or.inl ⟨shared, hshared.tail hopen hclose, rfl, rfl⟩
    rw [Balanced, blockPart_of_open hopen] at hshared
    exact cons_eq_opened hshared
  · exact ⟨rest, rfl, fun _ _ => Or.inr ⟨hold, rfl⟩, fun _ => Or.inl ⟨rfl, hold⟩⟩

theorem expectWord_twin {construct : Construct} {what : Expectation} {last last' : Nat}
    {word : Word} (h : Twin old new left right)
    (hread : expectWord construct what last left = .ok (word, rest)) :
    ∃ more, expectWord construct what last' right = .ok (word, more) ∧ Twin old new rest more := by
  rcases left with _ | ⟨⟨text | text | c, line⟩, left⟩
  · cases hread
  · cases hread
    obtain ⟨more, rfl, htwin, -⟩ := h.of_cons seam rfl
    exact ⟨more, rfl, htwin (by simp) (by simp)⟩
  · cases hread
  · cases hread

theorem eat_true_twin {lexeme : Lexeme}
    (hseparator : ∀ line, Token.isSeparator ⟨lexeme, line⟩ = false) (hopen : lexeme ≠ .mark '{')
    (hclose : lexeme ≠ .mark '}') (h : Twin old new left right)
    (hread : eat lexeme left = (true, rest)) :
    ∃ more, eat lexeme right = (true, more) ∧ Twin old new rest more := by
  rcases left with _ | ⟨⟨found, line⟩, left⟩
  · cases hread
  · rw [eat] at hread
    split at hread
    · next hfound =>
      cases hread
      cases hfound
      obtain ⟨more, rfl, htwin, -⟩ := h.of_cons seam (hseparator line)
      exact ⟨more, eat_of_eq found line more, htwin hopen hclose⟩
    · cases hread

omit seam in
theorem eat_false_twin {lexeme : Lexeme} (hnew : Lacks lexeme new) (h : Twin old new left right)
    (hread : eat lexeme left = (false, rest)) :
    rest = left ∧ eat lexeme right = (false, right) := by
  have hlacks : Lacks lexeme left ∧ rest = left := by
    rcases left with _ | ⟨token, left⟩
    · cases hread
      exact ⟨lacks_nil _, rfl⟩
    · rw [eat] at hread
      split at hread
      · cases hread
      · next hfound =>
        cases hread
        exact ⟨by simpa [Lacks] using hfound, rfl⟩
  refine ⟨hlacks.2, eat_of_lacks ?_⟩
  rcases h with ⟨_ | ⟨first, shared⟩, -, rfl, rfl⟩ | ⟨-, rfl⟩
  · exact hnew
  · exact hlacks.1
  · exact hlacks.1

theorem readValue_twin {construct : Construct} {last last' : Nat} {value : String}
    (h : Twin old new left right)
    (hread : readValue construct last left = .ok (value, rest)) :
    ∃ more, readValue construct last' right = .ok (value, more) ∧ Twin old new rest more := by
  rcases left with _ | ⟨⟨text | text | c, line⟩, left⟩
  · cases hread
  · cases hread
    obtain ⟨more, rfl, htwin, -⟩ := h.of_cons seam rfl
    exact ⟨more, rfl, htwin (by simp) (by simp)⟩
  · cases hread
    obtain ⟨more, rfl, htwin, -⟩ := h.of_cons seam rfl
    exact ⟨more, rfl, htwin (by simp) (by simp)⟩
  · by_cases hopen : c = '{'
    · subst hopen
      obtain ⟨more, rfl, -, hgroup⟩ := h.of_cons seam rfl
      rcases hgroup rfl with ⟨rfl, hold⟩ | ⟨shared, hshared, rfl, rfl⟩
      · exact ⟨rest, hread, Or.inr ⟨hold, rfl⟩⟩
      · obtain ⟨inner, after, hafter, hsplit⟩ := exists_splitGroup hshared
        simp only [readValue, hsplit] at hread ⊢
        cases hread
        exact ⟨after ++ new, rfl, Or.inl ⟨after, hafter, rfl, rfl⟩⟩
    · simp [readValue, misshapen] at hread

theorem readFieldId_twin {last last' : Nat} {id : Int16 × Nat} (h : Twin old new left right)
    (hread : readFieldId last left = .ok (id, rest)) :
    ∃ more, readFieldId last' right = .ok (id, more) ∧ Twin old new rest more := by
  obtain ⟨⟨word, middle⟩, hword, hread⟩ := bind_eq_ok.1 hread
  obtain ⟨middle', hword', hmiddle⟩ := expectWord_twin seam h hword
  dsimp only at hread
  split at hread
  · cases hread
  · next number hnumber =>
    split at hread
    · next after heat =>
      cases hread
      obtain ⟨more, heat', hmore⟩ :=
        eat_true_twin seam (fun _ => rfl) (by decide) (by decide) hmiddle heat
      refine ⟨more, bind_eq_ok.2 ⟨_, hword', ?_⟩, hmore⟩
      simp only [hnumber, heat']
    · cases hread

theorem readFieldType_twin {last last' : Nat} {type : Requiredness × Word}
    (h : Twin old new left right) (hread : readFieldType last left = .ok (type, rest)) :
    ∃ more, readFieldType last' right = .ok (type, more) ∧ Twin old new rest more := by
  obtain ⟨⟨word, middle⟩, hword, hread⟩ := bind_eq_ok.1 hread
  obtain ⟨middle', hword', hmiddle⟩ := expectWord_twin seam h hword
  dsimp only at hread
  split at hread
  · next hrequiredness =>
    cases hread
    refine ⟨middle', bind_eq_ok.2 ⟨_, hword', ?_⟩, hmiddle⟩
    simp only [hrequiredness]
  · next hrequiredness =>
    obtain ⟨⟨type, after⟩, htype, hread⟩ := bind_eq_ok.1 hread
    cases hread
    obtain ⟨more, htype', hmore⟩ := expectWord_twin seam hmiddle htype
    refine ⟨more, bind_eq_ok.2 ⟨_, hword', ?_⟩, hmore⟩
    dsimp only
    split
    · next hunstated => exact absurd hunstated hrequiredness
    · exact bind_eq_ok.2 ⟨_, htype', rfl⟩

theorem readDefault_twin {last last' : Nat} {value? : Option String} (h : Twin old new left right)
    (hread : readDefault last left = .ok (value?, rest)) :
    ∃ more, readDefault last' right = .ok (value?, more) ∧ Twin old new rest more := by
  unfold readDefault at hread
  split at hread
  · next after heat =>
    obtain ⟨⟨value, remaining⟩, hvalue, hread⟩ := bind_eq_ok.1 hread
    cases hread
    obtain ⟨after', heat', hafter⟩ :=
      eat_true_twin seam (fun _ => rfl) (by decide) (by decide) h heat
    obtain ⟨more, hvalue', hmore⟩ := readValue_twin seam hafter hvalue
    refine ⟨more, ?_, hmore⟩
    rw [readDefault, heat']
    exact bind_eq_ok.2 ⟨_, hvalue', rfl⟩
  · next after heat =>
    cases hread
    obtain ⟨rfl, heat'⟩ := eat_false_twin seam.equals h heat
    refine ⟨right, ?_, h⟩
    rw [readDefault, heat']

theorem readField_twin {last last' : Nat} {field : Field} (h : Twin old new left right)
    (hread : readField last left = .ok (field, rest)) :
    ∃ more, readField last' right = .ok (field, more) ∧ Twin old new rest more := by
  obtain ⟨⟨⟨id, line⟩, afterId⟩, hid, hread⟩ := bind_eq_ok.1 hread
  obtain ⟨⟨⟨requiredness, type⟩, afterType⟩, htype, hread⟩ := bind_eq_ok.1 hread
  obtain ⟨⟨name, afterName⟩, hname, hread⟩ := bind_eq_ok.1 hread
  obtain ⟨_, hcheck, hread⟩ := bind_eq_ok.1 hread
  obtain ⟨⟨default?, after⟩, hdefault, hread⟩ := bind_eq_ok.1 hread
  cases hread
  obtain ⟨_, hid', h⟩ := readFieldId_twin seam h hid
  obtain ⟨_, htype', h⟩ := readFieldType_twin seam h htype
  obtain ⟨_, hname', h⟩ := expectWord_twin seam h hname
  obtain ⟨more, hdefault', h⟩ := readDefault_twin seam h hdefault
  exact ⟨more, bind_eq_ok.2 ⟨_, hid', bind_eq_ok.2 ⟨_, htype', bind_eq_ok.2 ⟨_, hname',
    bind_eq_ok.2 ⟨_, hcheck, bind_eq_ok.2 ⟨_, hdefault', rfl⟩⟩⟩⟩⟩, h⟩

/-- Whether a field starts with its id is seen alike on both sides of a seam: the token after its
first is shared, or a separator on the one side and no colon on the other. -/
theorem startsField_twin {token : Token} {more : List Token}
    (hseparator : token.isSeparator = false)
    (h : Twin old new (token :: rest) (token :: more)) :
    startsField (token :: rest) = startsField (token :: more) := by
  have hother : ∀ tokens, Lacks (.mark ':') tokens → startsField (token :: tokens) = false := by
    intro tokens htokens
    cases tokens with
    | nil => rfl
    | cons second tokens => simpa [startsField] using htokens second rfl
  have hold : Lacks (.mark ':') old := by
    intro second hsecond hcolon
    have hstop := seam.stops second hsecond
    simp [Token.isSeparator, hcolon] at hstop
  rcases h with ⟨_ | ⟨first, _ | ⟨second, shared⟩⟩, -, hleft, hright⟩ | ⟨-, heq⟩
  · have hstop := seam.stops token (by rw [← List.nil_append old, ← hleft]; rfl)
    rw [hseparator] at hstop
    cases hstop
  · cases hleft
    cases hright
    exact (hother old hold).trans (hother new seam.colon).symm
  · cases hleft
    cases hright
    rfl
  · rw [heq]

theorem readEntry_twin {bare : Bool} {last last' : Nat} {taken : List Field} {field : Field}
    {token : Token} (hseparator : token.isSeparator = false)
    (h : Twin old new (token :: left) (token :: right))
    (hread : readEntry bare last taken (token :: left) = .ok (field, rest)) :
    ∃ more, readEntry bare last' taken (token :: right) = .ok (field, more) ∧
      Twin old new rest more := by
  rw [readEntry, startsField_twin seam hseparator h] at hread
  rw [readEntry]
  split at hread
  · next hbare =>
    obtain ⟨⟨type, after⟩, htype, hread⟩ := bind_eq_ok.1 hread
    cases hread
    obtain ⟨more, htype', hmore⟩ := expectWord_twin seam h htype
    rw [if_pos hbare]
    exact ⟨more, bind_eq_ok.2 ⟨_, htype', rfl⟩, hmore⟩
  · next hbare =>
    rw [if_neg hbare]
    exact readField_twin seam h hread

omit seam in
theorem isSeparator_of_skipSeparators {tokens : List Token} {token : Token}
    (h : skipSeparators tokens = token :: rest) : token.isSeparator = false := by
  have hfirst := List.head?_dropWhile_not Token.isSeparator tokens
  rw [← skipSeparators, h] at hfirst
  simpa using hfirst

omit seam in
theorem ne_brace_of_isSeparator {token : Token} (h : token.isSeparator = true) :
    token.lexeme ≠ .mark '{' ∧ token.lexeme ≠ .mark '}' := by
  constructor
  · intro hopen
    simp [Token.isSeparator, hopen] at h
  · intro hclose
    simp [Token.isSeparator, hclose] at h

omit seam in
theorem Balanced.skipSeparators {tokens : List Token} (h : Balanced tokens) :
    Balanced (skipSeparators tokens) := by
  induction tokens with
  | nil => exact h
  | cons token tokens ih =>
    rw [Grammar.skipSeparators, List.dropWhile_cons]
    split
    · next hseparator =>
      obtain ⟨hopen, hclose⟩ := ne_brace_of_isSeparator hseparator
      exact ih (h.tail hopen hclose)
    · exact h

/-- After separators both sides stand before the same token, or the one has come to its end. The
other then has come to its end too, or goes on after the seam. -/
theorem skipSeparators_twin (h : Twin old new left right) :
    (skipSeparators left = [] ∧ (old ≠ [] → skipSeparators right = []) ∧
        (old = [] → skipSeparators right = skipSeparators new)) ∨
      ∃ token rest more, skipSeparators left = token :: rest ∧
        skipSeparators right = token :: more ∧ token.isSeparator = false ∧
        Twin old new (token :: rest) (token :: more) := by
  have hpassed : old ≠ [] → skipSeparators left = skipSeparators right →
      (skipSeparators left = [] ∧ (old ≠ [] → skipSeparators right = []) ∧
          (old = [] → skipSeparators right = skipSeparators new)) ∨
        ∃ token rest more, skipSeparators left = token :: rest ∧
          skipSeparators right = token :: more ∧ token.isSeparator = false ∧
          Twin old new (token :: rest) (token :: more) := by
    intro hold hskip
    cases hleft : skipSeparators left with
    | nil => exact Or.inl ⟨rfl, fun _ => hskip ▸ hleft, fun hnil => absurd hnil hold⟩
    | cons token rest =>
      exact Or.inr ⟨token, rest, rest, rfl, hskip ▸ hleft, isSeparator_of_skipSeparators hleft,
        Or.inr ⟨hold, rfl⟩⟩
  rcases h with ⟨shared, hshared, rfl, rfl⟩ | ⟨hold, rfl⟩
  · have happend : ∀ tokens, skipSeparators (shared ++ tokens) =
        if (skipSeparators shared).isEmpty then skipSeparators tokens
        else skipSeparators shared ++ tokens := fun tokens => List.dropWhile_append
    -- Either the common part holds only separators, and both sides stand at the seam, or both stand
    -- before the same token of it.
    cases hskip : skipSeparators shared with
    | nil =>
      simp only [happend, hskip, List.isEmpty_nil, if_true] at hpassed ⊢
      by_cases hold : old = []
      · subst hold
        exact Or.inl ⟨rfl, fun hne => absurd rfl hne, fun _ => trivial⟩
      · exact hpassed hold (seam.skips hold)
    | cons token rest =>
      have hrest := hshared.skipSeparators
      rw [hskip] at hrest
      simp only [happend, hskip, List.isEmpty_cons, Bool.false_eq_true, if_false]
      exact Or.inr ⟨token, rest ++ old, rest ++ new, rfl, rfl, isSeparator_of_skipSeparators hskip,
        Or.inl ⟨token :: rest, hrest, rfl, rfl⟩⟩
  · exact hpassed hold rfl

theorem readEntries_twin {left right rest : List Token} {bare : Bool}
    {last last' opened opened' : Nat} {taken fields : List Field} (h : Twin old new left right)
    (hread : readEntries bare last opened taken left = .ok (fields, rest)) :
    ∃ more, readEntries bare last' opened' taken right = .ok (fields, more) ∧
      Twin old new rest more := by
  rw [readEntries_eq] at hread
  rw [readEntries_eq]
  rcases skipSeparators_twin seam h with ⟨hleft, -, -⟩ |
    ⟨token, after, after', hleft, hright, hseparator, htwin⟩
  · rw [hleft] at hread
    cases hread
  · rw [hleft] at hread
    rw [hright]
    dsimp only at hread ⊢
    by_cases hclose : token.lexeme = .mark ')'
    · rw [if_pos hclose] at hread
      rw [if_pos hclose]
      cases hread
      obtain ⟨more, heq, hmore, -⟩ := htwin.of_cons seam hseparator
      cases heq
      exact ⟨after', rfl, hmore (by simp [hclose]) (by simp [hclose])⟩
    · rw [if_neg hclose] at hread
      rw [if_neg hclose]
      obtain ⟨⟨field, remaining⟩, hentry, hread⟩ := bind_eq_ok.1 hread
      obtain ⟨_, hnew, hread⟩ := bind_eq_ok.1 hread
      obtain ⟨remaining', hentry', hremaining⟩ := readEntry_twin seam hseparator htwin hentry
      obtain ⟨more, hmore, hrest⟩ := readEntries_twin hremaining hread
      exact ⟨more, bind_eq_ok.2 ⟨_, hentry', bind_eq_ok.2 ⟨_, hnew, hmore⟩⟩, hrest⟩
termination_by left.length
decreasing_by
  exact ((readEntry_leaves hentry).after_suffix (hleft ▸ skipSeparators_suffix left)).length_lt

/-- A list in parentheses is read alike on both sides. -/
theorem readList_twin {bare : Bool} {last last' opened : Nat} {fields : List Field}
    {after : List Token} (h : Twin old new left right) (heat : eat (.mark '(') left = (true, after))
    (hread : readEntries bare last opened [] after = .ok (fields, rest)) :
    ∃ after' more, eat (.mark '(') right = (true, after') ∧
      readEntries bare last' (lineOf last' after') [] after' = .ok (fields, more) ∧
      Twin old new rest more := by
  obtain ⟨after', heat', hafter⟩ :=
    eat_true_twin seam (fun _ => rfl) (by decide) (by decide) h heat
  obtain ⟨more, hread', hmore⟩ := readEntries_twin seam hafter hread
  exact ⟨after', more, heat', hread', hmore⟩

theorem readParams_twin {last last' : Nat} {function : Word} {params : List Field}
    (h : Twin old new left right) (hread : readParams last function left = .ok (params, rest)) :
    ∃ more, readParams last' function right = .ok (params, more) ∧ Twin old new rest more := by
  unfold readParams at hread
  split at hread
  · cases hread
  · next after heat =>
    obtain ⟨after', more, heat', hread', hmore⟩ := readList_twin seam h heat hread
    refine ⟨more, ?_, hmore⟩
    rw [readParams, heat']
    exact hread'

theorem readThrows_twin {last last' : Nat} {throws : List Field} (h : Twin old new left right)
    (hread : readThrows last left = .ok (throws, rest)) :
    ∃ more, readThrows last' right = .ok (throws, more) ∧ Twin old new rest more := by
  unfold readThrows at hread
  split at hread
  · next after heat =>
    cases hread
    obtain ⟨rfl, heat'⟩ := eat_false_twin seam.throws h heat
    refine ⟨right, ?_, h⟩
    rw [readThrows, heat']
  · next after heat =>
    obtain ⟨after', heat', hafter⟩ :=
      eat_true_twin seam (fun _ => rfl) (by decide) (by decide) h heat
    split at hread
    · cases hread
    · next inner hparen =>
      obtain ⟨inner', more, hparen', hread', hmore⟩ := readList_twin seam hafter hparen hread
      refine ⟨more, ?_, hmore⟩
      rw [readThrows, heat']
      dsimp only
      rw [hparen']
      exact hread'

theorem eat_cons_twin {lexeme : Lexeme} (hopen : lexeme ≠ .mark '{') (hclose : lexeme ≠ .mark '}')
    {token : Token} (hseparator : token.isSeparator = false)
    (h : Twin old new (token :: left) (token :: right)) :
    ∃ more, eat lexeme (token :: right) = ((eat lexeme (token :: left)).1, more) ∧
      Twin old new (eat lexeme (token :: left)).2 more := by
  rw [eat, eat]
  split
  · next hfound =>
    subst hfound
    obtain ⟨more, heq, hmore, -⟩ := h.of_cons seam hseparator
    cases heq
    exact ⟨right, rfl, hmore hopen hclose⟩
  · exact ⟨token :: right, rfl, h⟩

theorem readFunction_twin {last last' : Nat} {token : Token} {function : Function}
    (hseparator : token.isSeparator = false)
    (h : Twin old new (token :: left) (token :: right))
    (hread : readFunction last (token :: left) = .ok (function, rest)) :
    ∃ more, readFunction last' (token :: right) = .ok (function, more) ∧
      Twin old new rest more := by
  obtain ⟨_, honeway', h⟩ := eat_cons_twin seam (by decide : Lexeme.word "oneway" ≠ .mark '{')
    (by decide) hseparator h
  obtain ⟨⟨type, afterType⟩, htype, hread⟩ := bind_eq_ok.1 hread
  obtain ⟨⟨name, afterName⟩, hname, hread⟩ := bind_eq_ok.1 hread
  obtain ⟨_, hcheck, hread⟩ := bind_eq_ok.1 hread
  obtain ⟨⟨params, afterParams⟩, hparams, hread⟩ := bind_eq_ok.1 hread
  obtain ⟨⟨throws, after⟩, hthrows, hread⟩ := bind_eq_ok.1 hread
  obtain ⟨_, honeway, hread⟩ := bind_eq_ok.1 hread
  cases hread
  obtain ⟨_, htype', h⟩ := expectWord_twin seam h htype
  obtain ⟨_, hname', h⟩ := expectWord_twin seam h hname
  obtain ⟨_, hparams', h⟩ := readParams_twin seam h hparams
  obtain ⟨more, hthrows', h⟩ := readThrows_twin seam h hthrows
  refine ⟨more, ?_, h⟩
  rw [readFunction]
  dsimp only
  rw [honeway']
  exact bind_eq_ok.2 ⟨_, htype', bind_eq_ok.2 ⟨_, hname', bind_eq_ok.2 ⟨_, hcheck,
    bind_eq_ok.2 ⟨_, hparams', bind_eq_ok.2 ⟨_, hthrows', bind_eq_ok.2 ⟨_, honeway, rfl⟩⟩⟩⟩⟩⟩

omit seam in
/-- Separators and braces are no numbers. -/
theorem not_mark_of_literal32? {token : Token} {value : Int32}
    (h : Text.literal32? token.text = some value) :
    token.isSeparator = false ∧ token.lexeme ≠ .mark '{' ∧ token.lexeme ≠ .mark '}' := by
  have hnot : ∀ c, Text.literal32? (String.singleton c) = none → token.lexeme ≠ .mark c := by
    intro c hnone hlexeme
    rw [Token.text, hlexeme, Lexeme.text, hnone] at h
    cases h
  have hcomma := hnot ',' (by decide)
  have hsemicolon := hnot ';' (by decide)
  refine ⟨?_, hnot '{' (by decide), hnot '}' (by decide)⟩
  simp [Token.isSeparator, hcomma, hsemicolon]

theorem readNumber_twin {taken : List EnumValue} {name : Word} {number : Int32 × Bool}
    (h : Twin old new left right) (hread : readNumber taken name left = .ok (number, rest)) :
    ∃ more, readNumber taken name right = .ok (number, more) ∧ Twin old new rest more := by
  unfold readNumber at hread
  split at hread
  · cases hread
  · next token after heat =>
    split at hread
    · next value hvalue =>
      cases hread
      obtain ⟨_, heat', h⟩ := eat_true_twin seam (fun _ => rfl) (by decide) (by decide) h heat
      obtain ⟨hseparator, hopen, hclose⟩ := not_mark_of_literal32? hvalue
      obtain ⟨more, rfl, hmore, -⟩ := h.of_cons seam hseparator
      refine ⟨more, ?_, hmore hopen hclose⟩
      rw [readNumber, heat']
      dsimp only
      rw [hvalue]
    · cases hread
  · next after heat =>
    obtain ⟨rfl, heat'⟩ := eat_false_twin seam.equals h heat
    split at hread
    · next value hvalue =>
      cases hread
      refine ⟨right, ?_, h⟩
      rw [readNumber, heat']
      dsimp only
      rw [hvalue]
    · cases hread

theorem readEnumValue_twin {taken : List EnumValue} {name : Token} {value : EnumValue}
    (h : Twin old new left right) (hread : readEnumValue taken name left = .ok (value, rest)) :
    ∃ more, readEnumValue taken name right = .ok (value, more) ∧ Twin old new rest more := by
  unfold readEnumValue at hread
  split at hread
  · next text hlexeme =>
    obtain ⟨_, hcheck, hread⟩ := bind_eq_ok.1 hread
    obtain ⟨⟨number, after⟩, hnumber, hread⟩ := bind_eq_ok.1 hread
    obtain ⟨_, hnew, hread⟩ := bind_eq_ok.1 hread
    cases hread
    obtain ⟨more, hnumber', hmore⟩ := readNumber_twin seam h hnumber
    refine ⟨more, ?_, hmore⟩
    rw [readEnumValue, hlexeme]
    exact bind_eq_ok.2 ⟨_, hcheck, bind_eq_ok.2 ⟨_, hnumber', bind_eq_ok.2 ⟨_, hnew, rfl⟩⟩⟩
  · cases hread

end Twins

end ThriftIdl.Grammar

import ThriftIdl.Proofs.Grammar.Lines
import ThriftIdl.Proofs.Grammar.Loops
import ThriftIdl.Proofs.Grammar.Stages

/-!
The tokens of a block on one line or on two. Inside a block the end of a line changes nothing, so a
line whose first part leads inside one may be broken there. Separators that are lost at the break
come under the lemmas on separators in a body.
-/

namespace ThriftIdl.Grammar

/-- The part with more tokens before it. -/
def BlockPart.prepend (before : List Token) : BlockPart → BlockPart
  | opened depth tokens => opened depth (before ++ tokens)
  | closed tokens last after => closed (before ++ tokens) last after

theorem cons_prepend (token : Token) (before : List Token) (part : BlockPart) :
    (part.prepend before).cons token = part.prepend (token :: before) := by
  cases part with
  | opened _ _ => rfl
  | closed _ _ _ => rfl

/-- After tokens that leave a block open, those that follow are taken as on a line of their own. -/
theorem blockPart_append {depth inside : Nat} {tokens : List Token}
    (h : blockPart depth tokens = .opened inside tokens) (rest : List Token) :
    blockPart depth (tokens ++ rest) = (blockPart inside rest).prepend tokens := by
  induction tokens generalizing depth with
  | nil =>
    cases h
    cases hpart : blockPart inside rest with
    | _ => exact hpart
  | cons token tokens ih =>
    by_cases hopen : token.lexeme = .mark '{'
    · rw [blockPart_of_open hopen] at h
      rw [List.cons_append, blockPart_of_open hopen, ih (cons_eq_opened h), cons_prepend]
    · by_cases hclose : token.lexeme = .mark '}'
      · cases depth with
        | zero =>
          rw [blockPart_of_close_zero hclose] at h
          cases h
        | succ depth =>
          rw [blockPart_of_close_succ hclose] at h
          rw [List.cons_append, blockPart_of_close_succ hclose, ih (cons_eq_opened h), cons_prepend]
      · rw [blockPart_of_other hopen hclose] at h
        rw [List.cons_append, blockPart_of_other hopen hclose, ih (cons_eq_opened h), cons_prepend]

namespace Pending

variable {pending result : Pending} {depth inside : Nat} {before tokens now : List Token}

theorem complete_ne_inside (pending : Pending) (tokens : List Token) (last : Nat) :
    pending.complete tokens last ≠ .ok (.inside result inside now) := by
  intro h
  obtain ⟨body, -, h⟩ := bind_eq_ok.1 h
  cases h

/-- A line leads from inside a block to inside it if it leaves the block open. -/
theorem enter_eq_inside (h : pending.enter depth before tokens = .ok (.inside result inside now)) :
    blockPart depth tokens = .opened inside tokens ∧ result = pending ∧ now = before ++ tokens := by
  rw [enter] at h
  split at h
  · next hpart =>
    cases h
    obtain ⟨rfl, -, -⟩ := blockPart_eq_opened_iff.1 hpart
    exact ⟨hpart, rfl, rfl⟩
  · exact absurd h (complete_ne_inside _ _ _)
  · cases h

/-- After the part of a line that leaves the block open, its rest is taken as a line. -/
theorem enter_append (h : blockPart depth tokens = .opened inside tokens)
    (before rest : List Token) :
    pending.enter depth before (tokens ++ rest) =
      pending.enter inside (before ++ tokens) rest := by
  rw [enter, enter, blockPart_append h]
  rcases blockPart inside rest with ⟨after, inner⟩ | ⟨inner, last, _ | ⟨token, more⟩⟩
  · simp only [BlockPart.prepend, List.append_assoc]
  · simp only [BlockPart.prepend, List.append_assoc]
  · rfl

theorem enter_append_of_inside
    (h : pending.enter depth before tokens = .ok (.inside result inside now)) (rest : List Token) :
    pending.enter depth before (tokens ++ rest) = result.enter inside now rest := by
  obtain ⟨hpart, rfl, rfl⟩ := enter_eq_inside h
  exact enter_append hpart before rest

theorem unlock_append_of_inside (h : pending.unlock tokens = .ok (.inside result inside now))
    (rest : List Token) : pending.unlock (tokens ++ rest) = result.enter inside now rest := by
  cases tokens with
  | nil => cases h
  | cons token tokens =>
    rw [unlock] at h
    rw [List.cons_append, unlock]
    split at h
    · next hopen =>
      rw [if_pos hopen]
      exact enter_append_of_inside h rest
    · cases h

theorem arrive_append_of_inside (h : pending.arrive tokens = .ok (.inside result inside now))
    (rest : List Token) :
    tokens ≠ [] ∧ pending.arrive (tokens ++ rest) = result.enter inside now rest := by
  cases tokens with
  | nil => cases h
  | cons token tokens =>
    have hunlock : pending.unlock (token :: tokens) = .ok (.inside result inside now) := h
    exact ⟨List.cons_ne_nil _ _, unlock_append_of_inside hunlock rest⟩

end Pending

section Openings

variable {kind : Kind} {taken : List Definition} {start : Nat} {tokens after : List Token}

theorem readBlockName_append {declared : Declared}
    (h : readBlockName kind taken start tokens = .ok (declared, after)) (rest : List Token) :
    readBlockName kind taken start (tokens ++ rest) = .ok (declared, after ++ rest) := by
  unfold readBlockName at h
  split at h
  · obtain ⟨declared, hdeclared, h⟩ := bind_eq_ok.1 h
    cases h
    exact bind_eq_ok.2 ⟨declared, hdeclared, rfl⟩
  · cases h

theorem readBaseOf_append {base? : Option String} (hafter : after ≠ [])
    (h : readBaseOf kind start tokens = .ok (base?, after)) (rest : List Token) :
    readBaseOf kind start (tokens ++ rest) = .ok (base?, after ++ rest) := by
  rw [readBaseOf] at h
  rw [readBaseOf]
  split at h
  · next hkind =>
    rw [if_pos hkind]
    cases tokens with
    | nil =>
      cases h
      exact absurd rfl hafter
    | cons token tokens =>
      by_cases hextends : token.lexeme = .word "extends"
      · have heat : ∀ more, eat (.word "extends") (token :: more) = (true, more) := fun more => by
          rw [eat, if_pos hextends]
        rw [readBase, heat] at h
        rw [List.cons_append, readBase, heat]
        rcases tokens with _ | ⟨⟨base | _ | _, line⟩, tokens⟩
        · cases h
        · obtain ⟨_, hbase, h⟩ := bind_eq_ok.1 h
          cases h
          exact bind_eq_ok.2 ⟨_, hbase, rfl⟩
        · cases h
        · cases h
      · have heat : ∀ more, eat (.word "extends") (token :: more) = (false, token :: more) :=
          fun more => by rw [eat, if_neg hextends]
        rw [readBase, heat] at h
        rw [List.cons_append, readBase, heat]
        cases h
        rfl
  · next hkind =>
    rw [if_neg hkind]
    cases h
    rfl

end Openings

/-- If the first part of a line leads inside the block it names, the rest of the line is taken as a
line. -/
theorem beginBlock_append_of_inside {kind : Kind} {taken : List Definition} {start : Nat}
    {tokens now : List Token} {pending : Pending} {inside : Nat}
    (h : beginBlock kind taken start tokens = .ok (.inside pending inside now))
    (rest : List Token) :
    beginBlock kind taken start (tokens ++ rest) = pending.enter inside now rest := by
  obtain ⟨⟨declared, afterName⟩, hname, h⟩ := bind_eq_ok.1 h
  obtain ⟨⟨base?, afterBase⟩, hbase, h⟩ := bind_eq_ok.1 h
  obtain ⟨hne, harrive⟩ := Pending.arrive_append_of_inside h rest
  simp only [beginBlock, readBlockName_append hname, bind, Except.bind]
  simp only [readBaseOf_append hne hbase]
  exact harrive

/-- If the first part of a line leads inside a block, the rest of the line is taken as a line. -/
theorem begin_append_of_inside {taken : List Definition} {start : Nat} {tokens now : List Token}
    {pending : Pending} {inside : Nat}
    (h : begin taken start tokens = .ok (.inside pending inside now))
    (rest : List Token) : begin taken start (tokens ++ rest) = pending.enter inside now rest := by
  rcases tokens with _ | ⟨⟨word | text | c, line⟩, tokens⟩
  · cases h
  · simp only [begin, List.cons_append] at h ⊢
    rcases hkind : Kind.ofWord? word with _ | ⟨_ | _ | _ | _ | _ | _ | _⟩
    · rw [hkind] at h
      cases h
    · rw [hkind] at h
      obtain ⟨definition, -, h⟩ := bind_eq_ok.1 h
      cases h
    · rw [hkind] at h
      obtain ⟨definition, -, h⟩ := bind_eq_ok.1 h
      cases h
    all_goals
      rw [hkind] at h
      exact beginBlock_append_of_inside h rest
  · cases h
  · cases h

namespace Stage

variable {stage : Stage} {number inside : Nat} {tokens now : List Token} {pending : Pending}

/-- If the first part of a line leads inside a block, the rest of the line is taken as a line. -/
theorem take_append (h : stage.take number tokens = .ok (.inside pending inside now))
    (rest : List Token) :
    stage.take number (tokens ++ rest) = pending.enter inside now rest := by
  cases stage with
  | between taken => exact begin_append_of_inside h rest
  | awaiting waiting => exact Pending.unlock_append_of_inside h rest
  | inside current depth before => exact Pending.enter_append_of_inside h rest

/-- Inside a block the stage keeps the tokens that leave so many braces open. -/
def Balanced : Stage → Prop
  | .inside _ depth tokens => blockPart 0 tokens = .opened depth tokens
  | _ => True

end Stage

theorem Pending.balanced_of_enter {pending : Pending} {depth : Nat} {before tokens : List Token}
    {next : Stage} (hbefore : blockPart 0 before = .opened depth before)
    (h : pending.enter depth before tokens = .ok next) : next.Balanced := by
  cases next with
  | between _ => trivial
  | awaiting _ => trivial
  | inside result inside now =>
    obtain ⟨hpart, -, rfl⟩ := Pending.enter_eq_inside h
    rw [Stage.Balanced, blockPart_append hbefore, hpart]
    rfl

theorem Pending.balanced_of_unlock {pending : Pending} {tokens : List Token} {next : Stage}
    (h : pending.unlock tokens = .ok next) : next.Balanced := by
  cases tokens with
  | nil => cases h
  | cons token tokens =>
    rw [Pending.unlock] at h
    split at h
    · exact Pending.balanced_of_enter rfl h
    · cases h

theorem balanced_of_beginBlock {kind : Kind} {taken : List Definition} {start : Nat}
    {tokens : List Token} {next : Stage} (h : beginBlock kind taken start tokens = .ok next) :
    next.Balanced := by
  obtain ⟨⟨declared, afterName⟩, -, h⟩ := bind_eq_ok.1 h
  obtain ⟨⟨base?, afterBase⟩, -, h⟩ := bind_eq_ok.1 h
  cases afterBase with
  | nil =>
    cases h
    trivial
  | cons token rest => exact @Pending.balanced_of_unlock _ (token :: rest) _ h

theorem balanced_of_begin {taken : List Definition} {start : Nat} {tokens : List Token}
    {next : Stage} (h : begin taken start tokens = .ok next) : next.Balanced := by
  rcases tokens with _ | ⟨⟨word | text | c, line⟩, tokens⟩
  · cases h
  · simp only [begin] at h
    rcases hkind : Kind.ofWord? word with _ | ⟨_ | _ | _ | _ | _ | _ | _⟩
    · rw [hkind] at h
      cases h
    · rw [hkind] at h
      obtain ⟨definition, -, h⟩ := bind_eq_ok.1 h
      cases h
      trivial
    · rw [hkind] at h
      obtain ⟨definition, -, h⟩ := bind_eq_ok.1 h
      cases h
      trivial
    all_goals
      rw [hkind] at h
      exact balanced_of_beginBlock h
  · cases h
  · cases h

namespace Stage

/-- One line keeps the braces counted. -/
theorem balanced_of_take {stage next : Stage} {number : Nat} {tokens : List Token}
    (hstage : stage.Balanced) (h : stage.take number tokens = .ok next) : next.Balanced := by
  cases stage with
  | between taken => exact balanced_of_begin h
  | awaiting pending => exact Pending.balanced_of_unlock h
  | inside pending depth before => exact Pending.balanced_of_enter hstage h

/-- However many lines are read, the braces are counted. -/
theorem balanced_of_after {stage next : Stage} {lines : List Line} (hstage : stage.Balanced)
    (h : stage.after lines = .ok next) : next.Balanced := by
  induction lines generalizing stage with
  | nil =>
    cases h
    exact hstage
  | cons line lines ih =>
    obtain ⟨middle, hmiddle, h⟩ := bind_eq_ok.1 h
    exact ih (balanced_of_take hstage hmiddle) h

end Stage

/-- What holds of the first tokens holds of fewer of them. -/
theorem Fresh.of_prefix {tokens before : List Token} (h : Fresh tokens)
    (hbefore : before <+: tokens) : Fresh before := by
  obtain ⟨rest, rfl⟩ := hbefore
  cases before with
  | nil => exact ⟨lacks_nil _, lacks_nil _, lacks_nil _⟩
  | cons token before => exact ⟨h.equals, h.colon, h.throws⟩

namespace Pending

variable {pending : Pending} {left right : List Token}

/-- In the block the one part of a body may be replaced by the other, unless what follows continues
an item. -/
def Replaces (pending : Pending) (left right : List Token) : Prop :=
  ∀ {more last body}, Fresh more →
    readBody pending.kind pending.base? ⟨left ++ more, last, 0⟩ = .ok body →
    readBody pending.kind pending.base? ⟨right ++ more, last, 0⟩ = .ok body

/-- One line of a block in which a part is replaced leads to where it led, or leaves the block open
as it did. -/
theorem enter_of_replaces (hreplaces : pending.Replaces left right) {depth : Nat}
    {before tokens : List Token} (hfresh : Fresh (before ++ tokens)) {next : Stage}
    (h : pending.enter depth (left ++ before) tokens = .ok next) :
    pending.enter depth (right ++ before) tokens = .ok next ∨
      ∃ inside, next = .inside pending inside (left ++ (before ++ tokens)) ∧
        pending.enter depth (right ++ before) tokens =
          .ok (.inside pending inside (right ++ (before ++ tokens))) := by
  rw [enter] at h
  rw [enter]
  rcases hpart : blockPart depth tokens with ⟨inside, inner⟩ | ⟨inner, last, _ | ⟨token, after⟩⟩
  · rw [hpart] at h
    cases h
    obtain ⟨rfl, -, -⟩ := blockPart_eq_opened_iff.1 hpart
    refine Or.inr ⟨inside, by rw [List.append_assoc], ?_⟩
    dsimp only
    rw [List.append_assoc]
  · rw [hpart] at h
    obtain ⟨body, hread, h⟩ := bind_eq_ok.1 h
    obtain ⟨close, -, -, rfl⟩ := blockPart_eq_closed_iff.1 hpart
    have hinner : Fresh (before ++ inner) :=
      hfresh.of_prefix ((List.prefix_append_right_inj before).2 (List.prefix_append inner _))
    rw [List.append_assoc] at hread
    have hread' := hreplaces hinner hread
    rw [← List.append_assoc] at hread'
    exact Or.inl (bind_eq_ok.2 ⟨body, hread', h⟩)
  · rw [hpart] at h
    cases h

/-- If in a block a part is replaced, the lines are read to the same definitions. -/
theorem run_of_replaces (hreplaces : pending.Replaces left right) {depth : Nat}
    {before tokens : List Token} {lines : List Line}
    (hfresh : Fresh (before ++ (tokens ++ lines.flatMap Line.tokens)))
    {definitions : List Definition}
    (h : (pending.enter depth (left ++ before) tokens >>= fun stage => stage.run lines) =
      .ok definitions) :
    (pending.enter depth (right ++ before) tokens >>= fun stage => stage.run lines) =
      .ok definitions := by
  rw [← List.append_assoc] at hfresh
  induction lines generalizing depth before tokens with
  | nil =>
    obtain ⟨next, hnext, hrun⟩ := bind_eq_ok.1 h
    rcases enter_of_replaces hreplaces (hfresh.of_prefix (List.prefix_append _ _)) hnext with
      hsame | ⟨inside, rfl, -⟩
    · exact bind_eq_ok.2 ⟨next, hsame, hrun⟩
    · cases hrun
  | cons line lines ih =>
    obtain ⟨next, hnext, hrun⟩ := bind_eq_ok.1 h
    rcases enter_of_replaces hreplaces (hfresh.of_prefix (List.prefix_append _ _)) hnext with
      hsame | ⟨inside, rfl, hinside⟩
    · exact bind_eq_ok.2 ⟨next, hsame, hrun⟩
    · rw [List.flatMap_cons, ← List.append_assoc] at hfresh
      exact bind_eq_ok.2 ⟨_, hinside, ih hfresh hrun⟩

end Pending

end ThriftIdl.Grammar

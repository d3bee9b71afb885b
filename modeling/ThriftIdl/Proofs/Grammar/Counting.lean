import ThriftIdl.Proofs.Cursor
import ThriftIdl.Proofs.Document.Faults
import ThriftIdl.Proofs.Grammar.Blocks

/-!
Reading a block from a cursor that delivers the lines, token by token, with a count of the open
braces. The count never falls below zero, and the cursor is left after the line of the brace that
brings it back to zero.
-/

namespace ThriftIdl

namespace Line.Cursor

theorem advance_eq_of_rest {cursor : Cursor} {line : Line} {more : List Line}
    (h : cursor.rest = line :: more) :
    cursor.advance = (some line, cursor.advance.2) ∧ cursor.advance.2.rest = more := by
  have hfirst := cursor.advance_fst
  rw [h, List.head?_cons] at hfirst
  exact ⟨Prod.ext hfirst rfl, by rw [rest_advance, h, List.tail_cons]⟩

/-- The cursor after so many deliveries. -/
def skip : Nat → Cursor → Cursor
  | 0, cursor => cursor
  | count + 1, cursor => skip count cursor.advance.2

theorem rest_skip (count : Nat) (cursor : Cursor) :
    (cursor.skip count).rest = cursor.rest.drop count := by
  induction count generalizing cursor with
  | zero => rfl
  | succ count ih => rw [skip, ih, rest_advance, List.drop_tail]

/-- All lines that a cursor delivers have tokens. -/
theorem tokens_ne_nil_of_mem_rest {cursor : Cursor} {line : Line} (h : line ∈ cursor.rest) :
    line.tokens ≠ [] :=
  tokens_ne_nil_of_mem_meaningful (mem_rest.1 h).1

end Line.Cursor

namespace Grammar

variable {kind : Kind} {start depth : Nat} {tokens before : List Token} {token : Token}
  {lines : List Line} {cursor : Line.Cursor}

namespace Counter

variable {depth : Int}

/-- The first brace opens the block. -/
theorem take_zero (hopen : token.lexeme = .mark '{') :
    zero.take kind token = .ok ⟨1, [], none⟩ := by
  rw [take, zero]
  exact if_pos hopen

theorem take_of_open (hopen : token.lexeme = .mark '{') (hdepth : 0 < depth) :
    take kind ⟨depth, before, none⟩ token = .ok ⟨depth + 1, before ++ [token], none⟩ := by
  have hinside : depth + 1 ≠ 1 := by omega
  simp only [take, if_pos hopen, if_neg hinside]

theorem take_of_outer_close (hclose : token.lexeme = .mark '}') :
    take kind ⟨1, before, none⟩ token = .ok ⟨0, before, some token.line⟩ := by
  have hopen : token.lexeme ≠ .mark '{' := by simp [hclose]
  simp only [take, if_neg hopen, if_pos hclose]
  rfl

theorem take_of_inner_close (hclose : token.lexeme = .mark '}') (hdepth : 1 < depth) :
    take kind ⟨depth, before, none⟩ token = .ok ⟨depth - 1, before ++ [token], none⟩ := by
  have hopen : token.lexeme ≠ .mark '{' := by simp [hclose]
  have hinside : depth - 1 ≠ 0 := by omega
  simp only [take, if_neg hopen, if_pos hclose, if_neg hinside]

theorem take_of_other (hopen : token.lexeme ≠ .mark '{') (hclose : token.lexeme ≠ .mark '}') :
    take kind ⟨depth, before, none⟩ token = .ok ⟨depth, before ++ [token], none⟩ := by
  simp only [take, if_neg hopen, if_neg hclose]

/-- Braces are open exactly as long as the block is not closed. -/
def Balanced : Counter → Prop
  | ⟨depth, _, none⟩ => 0 < depth
  | ⟨depth, _, some _⟩ => depth = 0

theorem Balanced.depth_nonneg {counter : Counter} (h : counter.Balanced) : 0 ≤ counter.depth := by
  obtain ⟨depth, inner, _ | last⟩ := counter
  · exact Int.le_of_lt h
  · exact Int.le_of_eq h.symm

/-- A token keeps the count balanced. -/
theorem Balanced.take {counter next : Counter} (h : counter.Balanced)
    (hnext : counter.take kind token = .ok next) : next.Balanced := by
  obtain ⟨depth, inner, _ | last⟩ := counter
  · have hdepth : 0 < depth := h
    by_cases hopen : token.lexeme = .mark '{'
    · rw [take_of_open hopen hdepth] at hnext
      cases hnext
      change 0 < depth + 1
      omega
    · by_cases hclose : token.lexeme = .mark '}'
      · by_cases hone : depth = 1
        · rw [hone, take_of_outer_close hclose] at hnext
          cases hnext
          rfl
        · rw [take_of_inner_close hclose (by omega)] at hnext
          cases hnext
          change 0 < depth - 1
          omega
      · rw [take_of_other hopen hclose] at hnext
        cases hnext
        exact hdepth
  · cases hnext

end Counter

/-- The counts on the way of `gather`. -/
inductive Visits (kind : Kind) : Counter → List Token → Line.Cursor → Counter → Prop
  | here {counter tokens cursor} : Visits kind counter tokens cursor counter
  | token {counter next visited token tokens cursor} (htake : counter.take kind token = .ok next)
      (h : Visits kind next tokens cursor visited) :
      Visits kind counter (token :: tokens) cursor visited
  | line {counter visited cursor after} {line : Line} (hopen : counter.closed? = none)
      (hline : cursor.advance = (some line, after))
      (h : Visits kind counter line.tokens after visited) : Visits kind counter [] cursor visited

theorem Visits.balanced {counter visited : Counter}
    (h : Visits kind counter tokens cursor visited) (hcounter : counter.Balanced) :
    visited.Balanced := by
  induction h with
  | here => exact hcounter
  | token htake _ ih => exact ih (hcounter.take htake)
  | line _ _ _ ih => exact ih hcounter

/-- What `gather` delivers was counted last. -/
theorem visits_of_gather {counter : Counter} {collected : Collected}
    (h : gather kind start counter tokens cursor = .ok collected) :
    ∃ visited, Visits kind counter tokens cursor visited ∧
      visited.closed? = some collected.last ∧ visited.tokens = collected.tokens := by
  fun_induction gather kind start counter tokens cursor with
  | case1 counter cursor token tokens violation htake => cases h
  | case2 counter cursor token tokens next htake ih =>
    obtain ⟨visited, hvisited, hcounted⟩ := ih h
    exact ⟨visited, .token htake hvisited, hcounted⟩
  | case3 counter cursor last hclosed =>
    cases h
    exact ⟨counter, .here, hclosed, rfl⟩
  | case4 counter cursor hopen after hline => cases h
  | case5 counter cursor hopen line after hline ih =>
    obtain ⟨visited, hvisited, hcounted⟩ := ih h
    exact ⟨visited, .line hopen hline hvisited, hcounted⟩

/-- The counts on the way of `collect`. -/
inductive Counts (kind : Kind) : List Token → Line.Cursor → Counter → Prop
  | here {token tokens cursor visited} (hopen : token.lexeme = .mark '{')
      (h : Visits kind .zero (token :: tokens) cursor visited) :
      Counts kind (token :: tokens) cursor visited
  | next {cursor after visited} {line : Line} (hline : cursor.advance = (some line, after))
      (hopen : ∀ token ∈ line.tokens.head?, token.lexeme = .mark '{')
      (h : Visits kind .zero line.tokens after visited) : Counts kind [] cursor visited

theorem Visits.depth_nonneg {visited : Counter} (hopen : token.lexeme = .mark '{')
    (h : Visits kind .zero (token :: tokens) cursor visited) : 0 ≤ visited.depth := by
  cases h with
  | here => exact Int.le_refl 0
  | token htake h =>
    rw [Counter.take_zero hopen, Except.ok.injEq] at htake
    subst htake
    exact (h.balanced Int.one_pos).depth_nonneg

/-- No count falls below zero, since the first token counted is a brace that opens. -/
theorem Counts.depth_nonneg {visited : Counter} (h : Counts kind tokens cursor visited) :
    0 ≤ visited.depth := by
  cases h with
  | here hopen h => exact h.depth_nonneg hopen
  | @next _ _ _ line hline hopen h =>
    have hmem : line ∈ cursor.rest :=
      (Line.Cursor.rest_of_delivered hline).1 ▸ List.mem_cons_self
    cases htokens : line.tokens with
    | nil => exact absurd htokens (Line.Cursor.tokens_ne_nil_of_mem_rest hmem)
    | cons token tokens =>
      rw [htokens] at hopen h
      exact h.depth_nonneg (hopen token rfl)

theorem visits_of_gatherOpened {collected : Collected}
    (h : gatherOpened kind start tokens cursor = .ok collected) :
    (∀ token ∈ tokens.head?, token.lexeme = .mark '{') ∧
      ∃ visited, Visits kind .zero tokens cursor visited ∧
        visited.closed? = some collected.last ∧ visited.tokens = collected.tokens := by
  rw [gatherOpened] at h
  split at h
  · next token hhead =>
    split at h
    · next hopen =>
      refine ⟨fun other hother => ?_, visits_of_gather h⟩
      rw [hhead, Option.mem_some_iff] at hother
      exact hother ▸ hopen
    · cases h
  · next hhead => exact ⟨by simp [hhead], visits_of_gather h⟩

/-- What `collect` delivers was counted last. -/
theorem counts_of_collect {collected : Collected}
    (h : collect kind start tokens cursor = .ok collected) :
    ∃ visited, Counts kind tokens cursor visited ∧
      visited.closed? = some collected.last ∧ visited.tokens = collected.tokens := by
  cases tokens with
  | cons token tokens =>
    rw [collect] at h
    obtain ⟨hopen, visited, hvisited, hcounted⟩ := visits_of_gatherOpened h
    exact ⟨visited, .here (hopen token rfl) hvisited, hcounted⟩
  | nil =>
    rw [collect] at h
    split at h
    · cases h
    · next line after hline =>
      obtain ⟨hopen, visited, hvisited, hcounted⟩ := visits_of_gatherOpened h
      exact ⟨visited, .next hline hopen hvisited, hcounted⟩

/-- The delivery of the block, the tokens before which were counted earlier. -/
def Block.collected (before : List Token) (cursor : Line.Cursor) (block : Block) : Collected :=
  ⟨before ++ block.tokens, block.last, cursor.skip block.used⟩

/-- A token inside a block belongs to what it holds. -/
theorem closeBlock_cons {inside : Nat}
    (h : blockPart depth (token :: tokens) = (blockPart inside tokens).cons token) :
    closeBlock kind start depth (token :: tokens) lines =
      (closeBlock kind start inside tokens lines).map fun block =>
        { block with tokens := token :: block.tokens } := by
  rw [closeBlock.eq_def, h, closeBlock.eq_def kind start inside]
  cases blockPart inside tokens with
  | closed inner last after =>
    cases after with
    | nil => rfl
    | cons => rfl
  | opened depth inner =>
    cases lines with
    | nil => rfl
    | cons line lines =>
      simp only [BlockPart.cons]
      cases closeBlock kind start depth line.tokens lines <;> rfl

/-- No token follows the end of the block. -/
theorem gather_of_closed {last : Nat} :
    gather kind start ⟨0, before, some last⟩ tokens cursor =
      match tokens with
      | [] => .ok ⟨before, last, cursor⟩
      | token :: _ => misshapen (.definition kind) token.line (.afterBlock token.text) := by
  cases tokens with
  | nil => rw [gather]
  | cons token tokens => rw [gather.eq_def]; rfl

/-- A token that stays inside the block is counted before the others. -/
theorem gather_cons {inside : Nat}
    (htake : Counter.take kind ⟨depth + 1, before, none⟩ token =
      .ok ⟨inside + 1, before ++ [token], none⟩)
    (hpart : blockPart depth (token :: tokens) = (blockPart inside tokens).cons token)
    (ih : gather kind start ⟨inside + 1, before ++ [token], none⟩ tokens cursor =
      (closeBlock kind start inside tokens cursor.rest).map
        (Block.collected (before ++ [token]) cursor)) :
    gather kind start ⟨depth + 1, before, none⟩ (token :: tokens) cursor =
      (closeBlock kind start depth (token :: tokens) cursor.rest).map
        (Block.collected before cursor) := by
  rw [gather, htake, closeBlock_cons hpart]
  refine ih.trans ?_
  cases closeBlock kind start inside tokens cursor.rest with
  | error violation => rfl
  | ok block => simp [Except.map, Block.collected]

/-- To count the tokens of a line is to close the block, if it is so at the end of the line. -/
theorem gather_eq_of_end
    (hend : ∀ depth before, gather kind start ⟨(depth : Nat) + 1, before, none⟩ [] cursor =
      (closeBlock kind start depth [] cursor.rest).map (Block.collected before cursor)) :
    gather kind start ⟨depth + 1, before, none⟩ tokens cursor =
      (closeBlock kind start depth tokens cursor.rest).map (Block.collected before cursor) := by
  induction tokens generalizing depth before with
  | nil => exact hend depth before
  | cons token tokens ih =>
    by_cases hopen : token.lexeme = .mark '{'
    · exact gather_cons (Counter.take_of_open hopen (by omega)) (blockPart_of_open hopen depth tokens) ih
    · by_cases hclose : token.lexeme = .mark '}'
      · cases depth with
        | zero =>
          rw [gather, Int.natCast_zero, Int.zero_add, Counter.take_of_outer_close hclose]
          change gather kind start ⟨0, before, some token.line⟩ tokens cursor = _
          rw [gather_of_closed, closeBlock.eq_def, blockPart_of_close_zero hclose]
          cases tokens with
          | nil => simp [Except.map, Block.collected, Line.Cursor.skip]
          | cons => rfl
        | succ depth =>
          refine gather_cons ?_ (blockPart_of_close_succ hclose depth tokens) ih
          rw [Counter.take_of_inner_close hclose (by omega), Int.natCast_succ, Int.add_sub_cancel]
      · exact gather_cons (Counter.take_of_other hopen hclose)
          (blockPart_of_other hopen hclose depth tokens) ih

/-- A block that is open after the last line is not closed. -/
theorem gather_nil_of_ended {depth : Int} {after : Line.Cursor}
    (h : cursor.advance = (none, after)) :
    gather kind start ⟨depth, before, none⟩ [] cursor =
      misshapen (.definition kind) start .blockNotClosed := by
  rw [gather.eq_def]
  simp only
  split
  · rfl
  · next hline => cases h.symm.trans hline

/-- A block that is open at the end of a line goes on with the next one. -/
theorem gather_nil_of_delivered {depth : Int} {after : Line.Cursor} {line : Line}
    (h : cursor.advance = (some line, after)) :
    gather kind start ⟨depth, before, none⟩ [] cursor =
      gather kind start ⟨depth, before, none⟩ line.tokens after := by
  rw [gather.eq_def]
  simp only
  split
  · next hline => cases h.symm.trans hline
  · next hline =>
    cases h.symm.trans hline
    rfl

/-- To count is to close the block. The lines are those that the cursor has still to deliver. -/
theorem gather_eq :
    gather kind start ⟨depth + 1, before, none⟩ tokens cursor =
      (closeBlock kind start depth tokens cursor.rest).map (Block.collected before cursor) := by
  induction hrest : cursor.rest generalizing depth before tokens cursor with
  | nil =>
    rw [← hrest]
    refine gather_eq_of_end fun depth before => ?_
    rw [gather_nil_of_ended (Line.Cursor.advance_of_nil hrest), hrest]
    rfl
  | cons line lines ih =>
    rw [← hrest]
    refine gather_eq_of_end fun depth before => ?_
    obtain ⟨hadvance, hafter⟩ := Line.Cursor.advance_eq_of_rest hrest
    rw [gather_nil_of_delivered hadvance, ih hafter, hrest,
      closeBlock.eq_def kind start depth []]
    simp only [blockPart]
    cases closeBlock kind start depth line.tokens lines with
    | error violation => rfl
    | ok block => rfl

/-- A block that opens with the tokens is counted from its opening brace on. -/
theorem gatherOpened_eq (htokens : tokens ≠ []) :
    gatherOpened kind start tokens cursor =
      (openBlock kind start tokens cursor.rest).map (Block.collected [] cursor) := by
  obtain ⟨token, tokens, rfl⟩ := List.exists_cons_of_ne_nil htokens
  rw [gatherOpened, List.head?_cons, openBlock]
  by_cases hopen : token.lexeme = .mark '{'
  · simp only [if_pos hopen]
    rw [gather, Counter.take_zero hopen]
    exact gather_eq
  · simp only [if_neg hopen]
    rfl

/-- The reader with the cursor finds what the block is, and takes its lines from the cursor. -/
theorem collect_eq :
    collect kind start tokens cursor =
      (readBlock kind start tokens cursor.rest).map (Block.collected [] cursor) := by
  cases tokens with
  | cons token tokens => exact gatherOpened_eq (List.cons_ne_nil token tokens)
  | nil =>
    cases hrest : cursor.rest with
    | nil =>
      rw [collect, Line.Cursor.advance_of_nil hrest]
      rfl
    | cons line lines =>
      obtain ⟨hadvance, hafter⟩ := Line.Cursor.advance_eq_of_rest hrest
      have hline : line.tokens ≠ [] :=
        Line.Cursor.tokens_ne_nil_of_mem_rest (hrest ▸ List.mem_cons_self)
      rw [collect, hadvance]
      simp only
      rw [gatherOpened_eq hline, hafter, readBlock]
      cases openBlock kind start line.tokens lines with
      | error violation => rfl
      | ok block => rfl

/-- A block is delivered exactly if a brace opens the tokens left on the line, or else the next
line, and the brace that matches it ends a line. What stands between them is delivered, the cursor
is left after that line, and the count of the braces, which ends with the block, never falls below
zero. -/
theorem collect_delivers (kind : Kind) (start : Nat) (tokens : List Token) (cursor : Line.Cursor) :
    (∀ collected, collect kind start tokens cursor = .ok collected ↔
      ∃ block, Encloses tokens cursor.rest block ∧ collected.tokens = block.tokens ∧
        collected.last = block.last ∧ collected.cursor = cursor.skip block.used ∧
        collected.cursor.rest = cursor.rest.drop block.used) ∧
    collect kind start tokens cursor = (readBlock kind start tokens cursor.rest).map (fun block =>
      ⟨block.tokens, block.last, cursor.skip block.used⟩) ∧
    (∀ visited, Counts kind tokens cursor visited → 0 ≤ visited.depth) ∧
    ∀ collected, collect kind start tokens cursor = .ok collected →
      ∃ visited, Counts kind tokens cursor visited ∧ visited.closed? = some collected.last ∧
        visited.tokens = collected.tokens := by
  have hlines : ∀ line ∈ cursor.rest, line.tokens ≠ [] :=
    fun line hline => Line.Cursor.tokens_ne_nil_of_mem_rest hline
  refine ⟨fun collected => ?_, collect_eq, fun visited h => h.depth_nonneg,
    fun collected h => counts_of_collect h⟩
  rw [collect_eq]
  constructor
  · intro h
    cases hblock : readBlock kind start tokens cursor.rest with
    | error violation => simp [hblock, Except.map] at h
    | ok block =>
      rw [hblock] at h
      cases h
      exact ⟨block, (readBlock_eq_ok_iff hlines).1 hblock, rfl, rfl, rfl,
        Line.Cursor.rest_skip _ _⟩
  · rintro ⟨block, hblock, htokens, hlast, hcursor, -⟩
    rw [(readBlock_eq_ok_iff hlines).2 hblock, Except.map, Block.collected, ← hlast, ← hcursor,
      List.nil_append, ← htokens]

end Grammar

end ThriftIdl

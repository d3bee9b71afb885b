import ThriftIdl.Proofs.Grammar.Readers

/-!
Reading definitions one line at a time. Between two lines reading stands between definitions, before
the block of one, or inside it.
-/

namespace ThriftIdl.Grammar

/-- A definition whose block is still to come or not complete, and the definitions before it. -/
structure Pending where
  taken : List Definition
  kind : Kind
  declared : Declared
  base? : Option String
  start : Nat
deriving DecidableEq

/-- Where reading stands after a line. Inside a block it keeps the tokens of the block so far and
the number of braces open in them. -/
inductive Stage where
  | between (taken : List Definition)
  | awaiting (pending : Pending)
  | inside (pending : Pending) (depth : Nat) (tokens : List Token)
deriving DecidableEq

namespace Pending

/-- The stage after the brace that closes the block. -/
def complete (pending : Pending) (tokens : List Token) (last : Nat) : Reading Stage := do
  let body ← readBody pending.kind pending.base? ⟨tokens, last, 0⟩
  .ok (.between (pending.taken ++ [⟨pending.declared, body⟩]))

/-- The stage after the tokens of a line inside the block. -/
def enter (pending : Pending) (depth : Nat) (before tokens : List Token) : Reading Stage :=
  match blockPart depth tokens with
  | .opened depth inner => .ok (.inside pending depth (before ++ inner))
  | .closed inner last [] => pending.complete (before ++ inner) last
  | .closed _ _ (token :: _) =>
    misshapen (.definition pending.kind) token.line (.afterBlock token.text)

/-- The stage after tokens that must open the block. -/
def unlock (pending : Pending) : List Token → Reading Stage
  | [] => misshapen (.definition pending.kind) pending.start .blockNotOpened
  | token :: rest =>
    if token.lexeme = .mark '{' then pending.enter 0 [] rest
    else
      misshapen (.definition pending.kind) token.line
        (.expected .openingBrace (some token.text))

/-- The stage after the line that names the definition, given the tokens after the name and the
base. -/
def arrive (pending : Pending) : List Token → Reading Stage
  | [] => .ok (.awaiting pending)
  | token :: rest => pending.unlock (token :: rest)

end Pending

/-- The stage after the line that names a definition with a block, given the tokens after the word
that opens it. -/
def beginBlock (kind : Kind) (taken : List Definition) (start : Nat) (tokens : List Token) :
    Reading Stage := do
  let (declared, rest) ← readBlockName kind taken start tokens
  let (base?, rest) ← readBaseOf kind start rest
  Pending.arrive ⟨taken, kind, declared, base?, start⟩ rest

/-- The stage after the line that starts a definition. -/
def begin (taken : List Definition) (start : Nat) : List Token → Reading Stage
  | [] => .error ⟨start, .noTokens⟩
  | token :: rest =>
    match token.lexeme with
    | .word word =>
      match Kind.ofWord? word with
      | none => .error ⟨token.line, .unexpectedWord word⟩
      | some .const => do
        let definition ← readConst taken start rest
        .ok (.between (taken ++ [definition]))
      | some .typedef => do
        let definition ← readTypedef taken start rest
        .ok (.between (taken ++ [definition]))
      | some kind => beginBlock kind taken start rest
    | _ => .error ⟨token.line, .unexpectedWord token.text⟩

namespace Stage

/-- The stage after the tokens of one more line. -/
def take (number : Nat) (tokens : List Token) : Stage → Reading Stage
  | between taken => begin taken number tokens
  | awaiting pending => pending.unlock tokens
  | inside pending depth before => pending.enter depth before tokens

/-- The stage after one more line. -/
def feed (stage : Stage) (line : Line) : Reading Stage := stage.take line.number line.tokens

/-- The definitions, if the lines may end at the stage. -/
def finish : Stage → Reading (List Definition)
  | between taken => .ok taken
  | awaiting pending => misshapen (.definition pending.kind) pending.start .blockNotOpened
  | inside pending _ _ => misshapen (.definition pending.kind) pending.start .blockNotClosed

/-- The definitions after all further lines. -/
def run (stage : Stage) : List Line → Reading (List Definition)
  | [] => stage.finish
  | line :: rest => stage.feed line >>= fun next => next.run rest

/-- The stage after all further lines. -/
def after (stage : Stage) : List Line → Reading Stage
  | [] => .ok stage
  | line :: rest => stage.feed line >>= fun next => next.after rest

theorem run_append (stage : Stage) (lines rest : List Line) :
    stage.run (lines ++ rest) = stage.after lines >>= fun next => next.run rest := by
  induction lines generalizing stage with
  | nil => rfl
  | cons line lines ih =>
    rw [List.cons_append, run, after, bind_assoc]
    apply congrArg
    funext next
    exact ih next

end Stage

theorem ok_bind {α β : Type} (value : α) (next : α → Reading β) :
    (Except.ok value : Reading α) >>= next = next value := rfl

variable {n : Nat}

/-- Up to a length, lines are read as one after the other. -/
def RunsBelow (n : Nat) : Prop :=
  ∀ taken lines, lines.length < n →
    readDefinitions taken lines = (Stage.between taken).run lines

/-- Closing a block and reading the definitions after it is entering the block with the tokens left
on its line and going on with the lines that follow. -/
theorem closeBlock_run (hruns : RunsBelow n) (pending : Pending) (depth : Nat)
    (before tokens : List Token) {lines : List Line} (hlines : lines.length < n) :
    (closeBlock pending.kind pending.start depth tokens lines >>= fun block =>
      readBody pending.kind pending.base? ⟨before ++ block.tokens, block.last, 0⟩ >>= fun body =>
        readDefinitions (pending.taken ++ [⟨pending.declared, body⟩]) (lines.drop block.used)) =
      pending.enter depth before tokens >>= fun stage => stage.run lines := by
  induction lines generalizing depth before tokens with
  | nil =>
    rw [closeBlock, Pending.enter]
    rcases blockPart depth tokens with ⟨depth, inner⟩ | ⟨inner, last, _ | ⟨token, after⟩⟩
    · rfl
    · simp only [Pending.complete, bind_assoc, ok_bind]
      apply congrArg
      funext body
      exact hruns _ _ hlines
    · rfl
  | cons line lines ih =>
    rw [closeBlock, Pending.enter]
    rcases blockPart depth tokens with ⟨depth, inner⟩ | ⟨inner, last, _ | ⟨token, after⟩⟩
    · -- The block goes on over the next line; its tokens so far become those before that line.
      have hrest := ih depth (before ++ inner) line.tokens (by
        rw [List.length_cons] at hlines
        omega)
      change (closeBlock pending.kind pending.start depth line.tokens lines >>= fun block => _) >>=
        _ = pending.enter depth (before ++ inner) line.tokens >>= fun stage => stage.run lines
      rw [← hrest, bind_assoc]
      apply congrArg
      funext block
      simp only [List.append_assoc]
      rfl
    · simp only [Pending.complete, bind_assoc, ok_bind]
      apply congrArg
      funext body
      exact hruns _ _ hlines
    · rfl

/-- Reading a block and the definitions after it is opening the block with the tokens left on the
line of its definition and going on with the lines that follow. -/
theorem readBlock_run (hruns : RunsBelow n) (pending : Pending) (tokens : List Token)
    {lines : List Line} (hlines : lines.length < n) :
    (readBlock pending.kind pending.start tokens lines >>= fun block =>
      readBody pending.kind pending.base? ⟨block.tokens, block.last, 0⟩ >>= fun body =>
        readDefinitions (pending.taken ++ [⟨pending.declared, body⟩]) (lines.drop block.used)) =
      pending.arrive tokens >>= fun stage => stage.run lines := by
  have hopen : ∀ tokens (lines : List Line), lines.length < n →
      (openBlock pending.kind pending.start tokens lines >>= fun block =>
        readBody pending.kind pending.base? ⟨block.tokens, block.last, 0⟩ >>= fun body =>
          readDefinitions (pending.taken ++ [⟨pending.declared, body⟩]) (lines.drop block.used)) =
        pending.unlock tokens >>= fun stage => stage.run lines := by
    intro tokens lines hlines
    cases tokens with
    | nil => rfl
    | cons token rest =>
      rw [openBlock, Pending.unlock]
      split
      · exact closeBlock_run hruns pending 0 [] rest hlines
      · rfl
  cases tokens with
  | cons token rest => exact hopen (token :: rest) lines hlines
  | nil =>
    cases lines with
    | nil => rfl
    | cons line rest =>
      have hrest := hopen line.tokens rest (by
        rw [List.length_cons] at hlines
        omega)
      change (openBlock pending.kind pending.start line.tokens rest >>= fun block => _) >>= _ =
        pending.unlock line.tokens >>= fun stage => stage.run rest
      rw [← hrest, bind_assoc]
      rfl

/-- A body does not depend on how many lines its block takes. -/
theorem readBody_used (kind : Kind) (base? : Option String) (block : Block) :
    readBody kind base? block = readBody kind base? ⟨block.tokens, block.last, 0⟩ := by
  cases kind with
  | _ => rfl

theorem readBlockDefinition_run (hruns : RunsBelow n) (kind : Kind) (taken : List Definition)
    (start : Nat) (tokens : List Token) {lines : List Line} (hlines : lines.length < n) :
    (readBlockDefinition kind taken start tokens lines >>= fun extent =>
      readDefinitions (taken ++ [extent.definition]) (lines.drop extent.used)) =
      beginBlock kind taken start tokens >>= fun stage => stage.run lines := by
  rw [readBlockDefinition_eq, beginBlock]
  simp only [bind_assoc]
  apply congrArg
  funext ⟨declared, rest⟩
  apply congrArg
  funext ⟨base?, rest⟩
  rw [← readBlock_run hruns ⟨taken, kind, declared, base?, start⟩ rest hlines]
  apply congrArg
  funext block
  rw [readBody_used]
  rfl

theorem readDefinition_run (hruns : RunsBelow n) (taken : List Definition) (line : Line)
    {lines : List Line} (hlines : lines.length < n) :
    (readDefinition taken line lines >>= fun extent =>
      readDefinitions (taken ++ [extent.definition]) (lines.drop extent.used)) =
      begin taken line.number line.tokens >>= fun stage => stage.run lines := by
  rw [readDefinition]
  rcases line.tokens with _ | ⟨⟨word | text | c, number⟩, rest⟩
  · rfl
  · simp only [begin]
    rcases Kind.ofWord? word with _ | ⟨_ | _ | _ | _ | _ | _ | _⟩
    · rfl
    · simp only [bind_assoc, ok_bind]
      apply congrArg
      funext definition
      exact hruns _ _ hlines
    · simp only [bind_assoc, ok_bind]
      apply congrArg
      funext definition
      exact hruns _ _ hlines
    all_goals exact readBlockDefinition_run hruns _ taken line.number rest hlines
  · rfl
  · rfl

/-- Definitions are read one line at a time. -/
theorem readDefinitions_eq_run (taken : List Definition) (lines : List Line) :
    readDefinitions taken lines = (Stage.between taken).run lines := by
  -- A block takes any number of lines, so the induction is on a bound for the lines that are left.
  have hruns : ∀ n, RunsBelow n := by
    intro n
    induction n with
    | zero => exact fun _ _ h => absurd h (Nat.not_lt_zero _)
    | succ n ih =>
      intro taken lines hlines
      cases lines with
      | nil => rw [readDefinitions, Stage.run, Stage.finish]
      | cons line rest =>
        rw [readDefinitions]
        exact readDefinition_run ih taken line (Nat.lt_of_succ_lt_succ hlines)
  exact hruns (lines.length + 1) taken lines (Nat.lt_succ_self _)

end ThriftIdl.Grammar

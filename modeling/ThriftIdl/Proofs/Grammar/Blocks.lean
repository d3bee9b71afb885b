import ThriftIdl.Proofs.Grammar.Braces

/-!
The block of a definition. It is what stands between a brace and the one that matches it, and the
line of that one ends with it.
-/

namespace ThriftIdl

namespace Grammar

variable {kind : Kind} {start : Nat} {tokens : List Token} {lines : List Line} {block : Block}

/-- The block and the lines it takes after its first tokens: these begin with a brace and end with
the one that matches it, and the block is what stands between them. -/
structure Encloses (tokens : List Token) (lines : List Line) (block : Block) : Prop where
  used_le : block.used ≤ lines.length
  nested : Nested block.tokens
  braces : ∃ opening closing : Token,
    tokens ++ (lines.take block.used).flatMap Line.tokens =
      opening :: (block.tokens ++ [closing]) ∧
    opening.lexeme = .mark '{' ∧ closing.lexeme = .mark '}' ∧ closing.line = block.last

/-- Lines with tokens are no lines if they have no tokens together. -/
theorem used_eq_zero {used : Nat} (hlines : ∀ line ∈ lines, line.tokens ≠ [])
    (hused : used ≤ lines.length) (h : (lines.take used).flatMap Line.tokens = []) :
    used = 0 := by
  cases used with
  | zero => rfl
  | succ used =>
    cases lines with
    | nil => exact absurd hused (Nat.not_succ_le_zero used)
    | cons line lines =>
      rw [List.take_succ_cons, List.flatMap_cons, List.append_eq_nil_iff] at h
      exact absurd h.1 (hlines line List.mem_cons_self)

theorem closeBlock_eq_ok_iff_of_closed {depth last : Nat} {inner after : List Token}
    (hpart : blockPart depth tokens = .closed inner last after) :
    closeBlock kind start depth tokens lines = .ok block ↔
      after = [] ∧ block = ⟨inner, last, 0⟩ := by
  rw [closeBlock.eq_def, hpart]
  cases after with
  | nil => simp [eq_comm]
  | cons token after => simp [misshapen]

/-- The block that the tokens and lines hold after a part of it, which leaves braces open. -/
structure Completes (depth : Int) (tokens : List Token) (lines : List Line) (block : Block) :
    Prop where
  used_le : block.used ≤ lines.length
  close : ∃ close, Matched depth block.tokens close ∧ close.line = block.last ∧
    tokens ++ (lines.take block.used).flatMap Line.tokens = block.tokens ++ [close]

/-- If the block is closed in the tokens, nothing follows it and no further line is taken. -/
theorem completes_iff_of_closed {depth last : Nat} {inner after : List Token}
    (hlines : ∀ line ∈ lines, line.tokens ≠ [])
    (hpart : blockPart depth tokens = .closed inner last after) :
    Completes depth tokens lines block ↔ after = [] ∧ block = ⟨inner, last, 0⟩ := by
  obtain ⟨close, hmatched, hlast, rfl⟩ := blockPart_eq_closed_iff.1 hpart
  constructor
  · rintro ⟨hused, other, hother, hline, htokens⟩
    rw [List.append_assoc, List.cons_append] at htokens
    obtain ⟨hinner, rfl, hafter⟩ := hmatched.eq_of_append_eq hother htokens
    rw [List.append_eq_nil_iff] at hafter
    have hzero := used_eq_zero hlines hused hafter.2
    exact ⟨hafter.1, by rw [hinner, ← hlast, hline, ← hzero]⟩
  · rintro ⟨rfl, rfl⟩
    exact ⟨Nat.zero_le _, close, hmatched, hlast, by simp⟩

/-- If the block is open after the tokens, it goes on with the next line. -/
theorem completes_iff_of_opened {depth inside : Nat} {inner : List Token} {line : Line}
    (hpart : blockPart depth tokens = .opened inside inner) :
    Completes depth tokens (line :: lines) block ↔
      ∃ rest, Completes inside line.tokens lines rest ∧
        block = ⟨tokens ++ rest.tokens, rest.last, rest.used + 1⟩ := by
  obtain ⟨-, hinside, habove⟩ := blockPart_eq_opened_iff.1 hpart
  constructor
  · rintro ⟨hused, close, hmatched, hlast, htokens⟩
    obtain ⟨more, hmore, hrest, hmatches⟩ := hmatched.exists_after habove htokens.symm
    rcases block with ⟨inner, last, _ | used⟩
    · exact absurd hrest (by simp)
    · rw [List.take_succ_cons, List.flatMap_cons] at hrest
      rw [← hinside] at hmatches
      refine ⟨⟨more, last, used⟩, ⟨Nat.le_of_succ_le_succ hused, close, hmatches, hlast, hrest⟩, ?_⟩
      rw [← hmore]
  · rintro ⟨rest, ⟨hused, close, hmatched, hlast, htokens⟩, rfl⟩
    refine ⟨Nat.succ_le_succ hused, close, ⟨hmatched.close, ?_, ?_⟩, hlast, ?_⟩
    · have heven := hmatched.even
      rw [braces_append]
      omega
    · rw [above_append, ← hinside]
      exact ⟨habove, hmatched.above⟩
    · rw [List.take_succ_cons, List.flatMap_cons, htokens, List.append_assoc]

/-- If the block is open after the last tokens, it is not there. -/
theorem not_completes_of_opened {depth inside : Nat} {inner : List Token}
    (hpart : blockPart depth tokens = .opened inside inner) : ¬Completes depth tokens [] block := by
  obtain ⟨-, -, habove⟩ := blockPart_eq_opened_iff.1 hpart
  rintro ⟨-, close, hmatched, -, htokens⟩
  obtain ⟨more, -, hrest, -⟩ := hmatched.exists_after habove htokens.symm
  simp at hrest

/-- An open block is closed by the brace that matches, and takes the lines up to the one that ends
with it. -/
theorem closeBlock_eq_ok_iff {depth : Nat} (hlines : ∀ line ∈ lines, line.tokens ≠ []) :
    closeBlock kind start depth tokens lines = .ok block ↔
      Completes depth tokens lines block := by
  induction lines generalizing depth tokens block with
  | nil =>
    cases hpart : blockPart depth tokens with
    | closed inner last after =>
      rw [closeBlock_eq_ok_iff_of_closed hpart, completes_iff_of_closed hlines hpart]
    | opened inside inner =>
      rw [closeBlock, hpart]
      exact iff_of_false (by simp [misshapen]) (not_completes_of_opened hpart)
  | cons line lines ih =>
    cases hpart : blockPart depth tokens with
    | closed inner last after =>
      rw [closeBlock_eq_ok_iff_of_closed hpart, completes_iff_of_closed hlines hpart]
    | opened inside inner =>
      rw [List.forall_mem_cons] at hlines
      obtain ⟨rfl, -, -⟩ := blockPart_eq_opened_iff.1 hpart
      rw [closeBlock, hpart, completes_iff_of_opened hpart, bind_eq_ok]
      refine exists_congr fun rest => ?_
      rw [ih hlines.2, Except.ok.injEq, eq_comm]

/-- A block that opens with the tokens is what its braces enclose. -/
theorem openBlock_eq_ok_iff (hlines : ∀ line ∈ lines, line.tokens ≠ []) (htokens : tokens ≠ []) :
    openBlock kind start tokens lines = .ok block ↔ Encloses tokens lines block := by
  obtain ⟨opening, rest, rfl⟩ := List.exists_cons_of_ne_nil htokens
  rw [openBlock]
  by_cases hopening : opening.lexeme = .mark '{'
  · rw [if_pos hopening, closeBlock_eq_ok_iff hlines]
    constructor
    · rintro ⟨hused, closing, hmatched, hlast, heq⟩
      refine ⟨hused, ⟨hmatched.above, ?_⟩, opening, closing, ?_, hopening, hmatched.close, hlast⟩
      · have heven := hmatched.even
        omega
      · rw [List.cons_append, heq]
    · rintro ⟨hused, hnested, first, closing, heq, -, hclosing, hlast⟩
      rw [List.cons_append] at heq
      obtain ⟨rfl, hrest⟩ := List.cons.inj heq
      refine ⟨hused, closing, ⟨hclosing, ?_, hnested.above⟩, hlast, hrest⟩
      have heven := hnested.even
      omega
  · rw [if_neg hopening]
    refine iff_of_false (by simp [misshapen]) ?_
    rintro ⟨-, -, first, closing, heq, hfirst, -⟩
    rw [List.cons_append] at heq
    obtain ⟨rfl, -⟩ := List.cons.inj heq
    exact hopening hfirst

/-- If no token is left on the line of the definition, the block begins with the next line. -/
theorem encloses_nil_cons {line : Line} :
    Encloses [] (line :: lines) block ↔
      ∃ rest, Encloses line.tokens lines rest ∧ block = { rest with used := rest.used + 1 } := by
  constructor
  · rintro ⟨hused, hnested, opening, closing, htokens, hbraces⟩
    rcases block with ⟨inner, last, _ | used⟩
    · simp at htokens
    · rw [List.nil_append, List.take_succ_cons, List.flatMap_cons] at htokens
      exact ⟨⟨inner, last, used⟩,
        ⟨Nat.le_of_succ_le_succ hused, hnested, opening, closing, htokens, hbraces⟩, rfl⟩
  · rintro ⟨rest, ⟨hused, hnested, opening, closing, htokens, hbraces⟩, rfl⟩
    refine ⟨Nat.succ_le_succ hused, hnested, opening, closing, ?_, hbraces⟩
    rw [List.nil_append, List.take_succ_cons, List.flatMap_cons, htokens]

/-- A block is read exactly if braces enclose it, in the tokens left on the line of its definition
and the lines that follow. -/
theorem readBlock_eq_ok_iff (hlines : ∀ line ∈ lines, line.tokens ≠ []) :
    readBlock kind start tokens lines = .ok block ↔ Encloses tokens lines block := by
  cases tokens with
  | cons token tokens => exact openBlock_eq_ok_iff hlines (List.cons_ne_nil token tokens)
  | nil =>
    cases lines with
    | nil =>
      refine iff_of_false (by simp [readBlock, openBlock, misshapen]) ?_
      rintro ⟨-, -, opening, closing, htokens, -⟩
      simp at htokens
    | cons line lines =>
      rw [List.forall_mem_cons] at hlines
      rw [readBlock, bind_eq_ok, encloses_nil_cons]
      refine exists_congr fun rest => ?_
      rw [openBlock_eq_ok_iff hlines.2 hlines.1, Except.ok.injEq, eq_comm]

/-- What braces enclose depends on no line after theirs. -/
theorem Encloses.take (h : Encloses tokens lines block) (more : List Line) :
    Encloses tokens (lines.take block.used ++ more) block := by
  obtain ⟨hused, hnested, hbraces⟩ := h
  have hlength : (lines.take block.used).length = block.used := List.length_take_of_le hused
  have htake : (lines.take block.used ++ more).take block.used = lines.take block.used :=
    List.take_left' hlength
  refine ⟨?_, hnested, by rwa [htake]⟩
  rw [List.length_append, hlength]
  exact Nat.le_add_right _ _

end Grammar

end ThriftIdl

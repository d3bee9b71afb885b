import Mathlib.Algebra.Ring.Int.Defs
import ThriftIdl.Proofs.Grammar.Readers

/-!
Braces that match. The braces in tokens are counted, one up for a brace that opens and one down for
one that closes. A block takes the tokens up to the first brace that brings the count below zero,
which is the one that matches its own.
-/

namespace ThriftIdl

/-- What a token adds to the number of open braces. -/
def Token.brace (token : Token) : Int :=
  if token.lexeme = .mark '{' then 1 else if token.lexeme = .mark '}' then -1 else 0

theorem Token.brace_of_open {token : Token} (h : token.lexeme = .mark '{') : token.brace = 1 :=
  if_pos h

theorem Token.brace_of_close {token : Token} (h : token.lexeme = .mark '}') : token.brace = -1 := by
  rw [brace, if_neg (by simp [h]), if_pos h]

theorem Token.brace_of_other {token : Token} (hopen : token.lexeme ≠ .mark '{')
    (hclose : token.lexeme ≠ .mark '}') : token.brace = 0 := by
  rw [brace, if_neg hopen, if_neg hclose]

namespace Grammar

variable {tokens inner after : List Token} {token close : Token}

/-- How many more braces the tokens open than they close. -/
def braces (tokens : List Token) : Int := (tokens.map Token.brace).sum

@[simp] theorem braces_nil : braces [] = 0 := rfl

@[simp] theorem braces_cons (token : Token) (tokens : List Token) :
    braces (token :: tokens) = token.brace + braces tokens := by
  simp [braces]

@[simp] theorem braces_append (tokens more : List Token) :
    braces (tokens ++ more) = braces tokens + braces more := by
  simp [braces]

/-- With so many braces open before the tokens, none of them closes one that is not open. -/
def Above (depth : Int) (tokens : List Token) : Prop :=
  ∀ part, part <+: tokens → 0 ≤ depth + braces part

/-- Every brace in the tokens has its match among them. -/
structure Nested (tokens : List Token) : Prop where
  above : Above 0 tokens
  even : braces tokens = 0

theorem above_nil {depth : Int} : Above depth [] ↔ 0 ≤ depth := by
  simp [Above]

theorem above_cons {depth : Int} :
    Above depth (token :: tokens) ↔ 0 ≤ depth ∧ Above (depth + token.brace) tokens := by
  constructor
  · intro h
    refine ⟨by simpa using h [] List.nil_prefix, ?_⟩
    intro part hpart
    have hcons := h (token :: part) (List.cons_prefix_cons.2 ⟨rfl, hpart⟩)
    rw [braces_cons] at hcons
    omega
  · rintro ⟨hdepth, h⟩ part hpart
    rcases List.prefix_cons_iff.1 hpart with rfl | ⟨rest, rfl, hrest⟩
    · simpa using hdepth
    · have hlater := h rest hrest
      rw [braces_cons]
      omega

theorem above_append {depth : Int} {more : List Token} :
    Above depth (tokens ++ more) ↔ Above depth tokens ∧ Above (depth + braces tokens) more := by
  induction tokens generalizing depth with
  | nil =>
    rw [List.nil_append, above_nil, braces_nil, Int.add_zero, iff_and_self]
    exact fun h => by simpa using h [] List.nil_prefix
  | cons token tokens ih =>
    rw [List.cons_append, above_cons, above_cons, ih, braces_cons, Int.add_assoc, and_assoc]

theorem Above.depth_nonneg {depth : Int} (h : Above depth tokens) : 0 ≤ depth := by
  simpa using h [] List.nil_prefix

/-- Before the brace the tokens close as many braces as are open, and never more. -/
structure Matched (depth : Int) (inner : List Token) (close : Token) : Prop where
  close : close.lexeme = .mark '}'
  even : depth + braces inner = 0
  above : Above depth inner

theorem BlockPart.cons_eq_opened_iff {part : BlockPart} {inside : Nat} :
    part.cons token = .opened inside inner ↔
      ∃ rest, part = .opened inside rest ∧ inner = token :: rest := by
  cases part with
  | opened depth rest => grind [BlockPart.cons]
  | closed rest last after => simp [BlockPart.cons]

theorem BlockPart.cons_eq_closed_iff {part : BlockPart} {last : Nat} :
    part.cons token = .closed inner last after ↔
      ∃ rest, part = .closed rest last after ∧ inner = token :: rest := by
  cases part with
  | opened depth rest => simp [BlockPart.cons]
  | closed rest last after => grind [BlockPart.cons]

/-- A block stays open over tokens that close no more braces than are open in it. -/
theorem blockPart_eq_opened_iff {depth inside : Nat} :
    blockPart depth tokens = .opened inside inner ↔
      inner = tokens ∧ (inside : Int) = depth + braces tokens ∧ Above depth tokens := by
  induction tokens generalizing depth inner with
  | nil =>
    simp only [blockPart, BlockPart.opened.injEq, above_nil, braces_nil]
    grind
  | cons token tokens ih =>
    rw [above_cons, braces_cons]
    by_cases hopen : token.lexeme = .mark '{'
    · rw [blockPart_of_open hopen, BlockPart.cons_eq_opened_iff, Token.brace_of_open hopen]
      simp only [ih, Int.natCast_add, Int.cast_ofNat_Int]
      grind
    · by_cases hclose : token.lexeme = .mark '}'
      · rw [Token.brace_of_close hclose]
        cases depth with
        | zero =>
          rw [blockPart_of_close_zero hclose]
          simp only [reduceCtorEq, false_iff]
          rintro ⟨-, -, -, habove⟩
          have hdepth := habove.depth_nonneg
          simp at hdepth
        | succ depth =>
          rw [blockPart_of_close_succ hclose, BlockPart.cons_eq_opened_iff]
          simp only [ih, Int.natCast_add, Int.cast_ofNat_Int]
          grind
      · rw [blockPart_of_other hopen hclose, BlockPart.cons_eq_opened_iff,
          Token.brace_of_other hopen hclose]
        simp only [ih]
        grind

/-- A block closes at the first brace that is not open in it. -/
theorem blockPart_eq_closed_iff {depth last : Nat} :
    blockPart depth tokens = .closed inner last after ↔
      ∃ close, Matched depth inner close ∧ close.line = last ∧
        tokens = inner ++ close :: after := by
  induction tokens generalizing depth inner with
  | nil => simp [blockPart]
  | cons token tokens ih =>
    -- Unless the first token closes the block, it is the first of those inside.
    have hinside : ∀ {before : Nat}, (before : Int) = depth + token.brace →
        ((blockPart before tokens).cons token = .closed inner last after ↔
          ∃ close, Matched depth inner close ∧ close.line = last ∧
            token :: tokens = inner ++ close :: after) := by
      intro before hbefore
      rw [BlockPart.cons_eq_closed_iff]
      constructor
      · rintro ⟨rest, hrest, rfl⟩
        obtain ⟨close, ⟨hclose, heven, habove⟩, hlast, rfl⟩ := ih.1 hrest
        refine ⟨close, ⟨hclose, ?_, ?_⟩, hlast, rfl⟩
        · rw [braces_cons]
          omega
        · rw [above_cons, ← hbefore]
          exact ⟨by omega, habove⟩
      · rintro ⟨close, ⟨hclose, heven, habove⟩, hlast, htokens⟩
        cases inner with
        | nil =>
          cases htokens
          rw [Token.brace_of_close hclose] at hbefore
          rw [braces_nil] at heven
          omega
        | cons first rest =>
          cases htokens
          rw [braces_cons] at heven
          rw [above_cons, ← hbefore] at habove
          exact ⟨rest, ih.2 ⟨close, ⟨hclose, by omega, habove.2⟩, hlast, rfl⟩, rfl⟩
    by_cases hopen : token.lexeme = .mark '{'
    · rw [blockPart_of_open hopen]
      exact hinside (by rw [Token.brace_of_open hopen]; rfl)
    · by_cases hclose : token.lexeme = .mark '}'
      · cases depth with
        | zero =>
          rw [blockPart_of_close_zero hclose]
          constructor
          · intro h
            cases h
            exact ⟨token, ⟨hclose, rfl, above_nil.2 (Int.le_refl 0)⟩, rfl, rfl⟩
          · rintro ⟨close, ⟨-, -, habove⟩, rfl, htokens⟩
            cases inner with
            | nil =>
              cases htokens
              rfl
            | cons first rest =>
              cases htokens
              have hbelow := (above_cons.1 habove).2.depth_nonneg
              rw [Token.brace_of_close hclose] at hbelow
              exact absurd hbelow (by decide)
        | succ depth =>
          rw [blockPart_of_close_succ hclose]
          exact hinside (by rw [Token.brace_of_close hclose]; omega)
      · rw [blockPart_of_other hopen hclose]
        exact hinside (by rw [Token.brace_of_other hopen hclose]; omega)

/-- The brace that matches takes the count below zero. -/
theorem Matched.not_prefix {depth : Int} (h : Matched depth inner close)
    (habove : Above depth tokens) : ¬inner ++ [close] <+: tokens := by
  intro hprefix
  have hcount := habove _ hprefix
  have heven := h.even
  rw [braces_append, braces_cons, braces_nil, Token.brace_of_close h.close] at hcount
  omega

/-- Tokens that close no more braces than are open end before the brace that matches. -/
theorem Matched.exists_after {depth : Int} {rest : List Token} (h : Matched depth inner close)
    (habove : Above depth tokens) (heq : inner ++ [close] = tokens ++ rest) :
    ∃ more, inner = tokens ++ more ∧ rest = more ++ [close] ∧
      Matched (depth + braces tokens) more close := by
  have hsplit : ∃ more, inner = tokens ++ more ∧ rest = more ++ [close] := by
    rcases List.append_eq_append_iff.1 heq with ⟨more, htokens, hclose⟩ | ⟨more, hinner, hrest⟩
    · cases more with
      | nil => exact ⟨[], by simp [htokens], hclose.symm⟩
      | cons first more =>
        obtain ⟨rfl, -⟩ := List.cons.inj hclose
        exact absurd ⟨more, by simp [htokens]⟩ (h.not_prefix habove)
    · exact ⟨more, hinner, hrest⟩
  obtain ⟨more, rfl, rfl⟩ := hsplit
  refine ⟨more, rfl, rfl, h.close, ?_, ?_⟩
  · have heven := h.even
    rw [braces_append] at heven
    omega
  · exact (above_append.1 h.above).2

/-- No two braces match the same one. -/
theorem Matched.eq_of_append_eq {depth : Int} {other more : List Token} {last : Token}
    (h : Matched depth inner close) (hother : Matched depth other last)
    (heq : inner ++ close :: after = other ++ last :: more) :
    inner = other ∧ close = last ∧ after = more := by
  rcases List.append_eq_append_iff.1 heq with ⟨part, hpart, hclose⟩ | ⟨part, hpart, hlast⟩
  · cases part with
    | nil =>
      obtain ⟨hclose, hafter⟩ := List.cons.inj hclose
      exact ⟨by simp [hpart], hclose, hafter⟩
    | cons first part =>
      obtain ⟨rfl, -⟩ := List.cons.inj hclose
      exact absurd ⟨part, by simp [hpart]⟩ (h.not_prefix hother.above)
  · cases part with
    | nil =>
      obtain ⟨hlast, hmore⟩ := List.cons.inj hlast
      exact ⟨by simp [hpart], hlast.symm, hmore.symm⟩
    | cons first part =>
      obtain ⟨rfl, -⟩ := List.cons.inj hlast
      exact absurd ⟨part, by simp [hpart]⟩ (hother.not_prefix h.above)

end Grammar

end ThriftIdl

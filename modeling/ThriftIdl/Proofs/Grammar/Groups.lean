import ThriftIdl.Document.Reading
import ThriftIdl.Proofs.Grammar.Braces
import ThriftIdl.Proofs.Rescanning

/-!
The text that is kept of a value in braces. It is made of the texts of its tokens, with blanks only
after `:` and `,`. Scanned again it gives these tokens unless two words stand side by side in the
value, or a literal or bracket that is not closed on its line stands before another token: there the
tokens run together.
-/

namespace ThriftIdl

namespace Lexeme

/-- The lexeme ends before the other one even if no blank stands between them. -/
structure EndsBefore (left right : Lexeme) : Prop where
  closed : left.Closed
  notBothWords : left.isWord = true → right.isWord = false

theorem endsBefore_mark {c : Char} (h : isMark c = true) (right : Lexeme) :
    (mark c).EndsBefore right where
  closed := closed_mark h
  notBothWords := by simp [isWord]

/-- Lexemes end before one another if all but the last are closed and no two words stand side by
side. -/
theorem isChain_endsBefore_iff {lexemes : List Lexeme} :
    lexemes.IsChain EndsBefore ↔ lexemes.IsChain (fun left _ => left.Closed) ∧
      lexemes.IsChain fun left right => left.isWord = true → right.isWord = false := by
  induction lexemes with
  | nil => simp
  | cons lexeme lexemes ih =>
    rw [List.isChain_cons, List.isChain_cons, List.isChain_cons, ih]
    constructor
    · rintro ⟨hbefore, hclosed, hwords⟩
      exact ⟨⟨fun next hnext => (hbefore next hnext).closed, hclosed⟩,
        fun next hnext => (hbefore next hnext).notBothWords, hwords⟩
    · rintro ⟨⟨hclosed, hmoreClosed⟩, hwords, hmoreWords⟩
      exact ⟨fun next hnext => ⟨hclosed next hnext, hwords next hnext⟩, hmoreClosed, hmoreWords⟩

end Lexeme

namespace Line

variable {line : Line}

theorem formed_of_mem_tokens {token : Token} (h : token ∈ line.tokens) : token.lexeme.Formed := by
  rw [tokens, List.mem_map] at h
  obtain ⟨lexeme, hlexeme, rfl⟩ := h
  exact (Lexeme.formed_scan line.text.toList).1 lexeme hlexeme

/-- On one line every token before another is closed. -/
theorem isChain_closed_of_infix {tokens : List Token} (h : tokens <:+: line.tokens) :
    (tokens.map (·.lexeme)).IsChain fun left _ => left.Closed := by
  have hlexemes : line.tokens.map (·.lexeme) = Lexeme.scan line.text.toList := by
    rw [Line.tokens, List.map_map]
    exact List.map_id _
  have hchain := (Lexeme.formed_scan line.text.toList).2
  rw [← hlexemes] at hchain
  exact hchain.infix (h.map _)

end Line

namespace Grammar

open Lexeme (scan)

variable {tokens rest inner after : List Token} {token close : Token}

theorem Matched.cons {depth : Int} (h : Matched (depth + token.brace) inner close)
    (hdepth : 0 ≤ depth) : Matched depth (token :: inner) close where
  close := h.close
  even := by
    rw [braces_cons, ← Int.add_assoc]
    exact h.even
  above := above_cons.2 ⟨hdepth, h.above⟩

/-- A group ends with the brace that matches. -/
theorem exists_matched_of_splitGroup {depth : Nat} {taken : List Token}
    (h : splitGroup depth tokens = some (taken, after)) :
    ∃ inner close, taken = inner ++ [close] ∧ Matched depth inner close ∧
      tokens = taken ++ after := by
  fun_induction splitGroup depth tokens generalizing taken with
  | case1 => cases h
  | case2 depth token rest hopen ih =>
    obtain ⟨⟨more, after⟩, hsplit, hpair⟩ := Option.map_eq_some_iff.1 h
    cases hpair
    obtain ⟨inner, close, rfl, hmatched, rfl⟩ := ih hsplit
    rw [Int.natCast_add, Int.cast_ofNat_Int, ← Token.brace_of_open hopen] at hmatched
    exact ⟨token :: inner, close, rfl, hmatched.cons (Int.natCast_nonneg _), rfl⟩
  | case3 token rest hopen hclose =>
    cases h
    exact ⟨[], token, rfl, ⟨hclose, rfl, above_nil.2 (Int.le_refl 0)⟩, rfl⟩
  | case4 token rest hopen hclose depth ih =>
    obtain ⟨⟨more, after⟩, hsplit, hpair⟩ := Option.map_eq_some_iff.1 h
    cases hpair
    obtain ⟨inner, close, rfl, hmatched, rfl⟩ := ih hsplit
    have hdepth : (depth : Int) = ((depth + 1 : Nat) : Int) + token.brace := by
      rw [Token.brace_of_close hclose]
      omega
    rw [hdepth] at hmatched
    exact ⟨token :: inner, close, rfl, hmatched.cons (Int.natCast_nonneg _), rfl⟩
  | case5 depth token rest hopen hclose ih =>
    obtain ⟨⟨more, after⟩, hsplit, hpair⟩ := Option.map_eq_some_iff.1 h
    cases hpair
    obtain ⟨inner, close, rfl, hmatched, rfl⟩ := ih hsplit
    have hdepth : (depth : Int) = depth + token.brace := by
      rw [Token.brace_of_other hopen hclose, Int.add_zero]
    rw [hdepth] at hmatched
    exact ⟨token :: inner, close, rfl, hmatched.cons (Int.natCast_nonneg _), rfl⟩

/-- The tokens are a brace, the brace that matches it, and those between the two. -/
def IsGroup (tokens : List Token) : Prop :=
  ∃ opening inner closing, tokens = opening :: (inner ++ [closing]) ∧
    opening.lexeme = .mark '{' ∧ Matched 0 inner closing

/-- A value that starts with a brace is the text of a group. -/
theorem exists_group_of_readValue {construct : Construct} {last : Nat} {value : String}
    (hopen : token.lexeme = .mark '{')
    (h : readValue construct last (token :: tokens) = .ok (value, rest)) :
    ∃ group, token :: tokens = group ++ rest ∧ IsGroup group ∧ value = groupText group := by
  simp only [readValue, hopen] at h
  split at h
  · next inner after hsplit =>
    cases h
    obtain ⟨between, closing, rfl, hmatched, rfl⟩ := exists_matched_of_splitGroup hsplit
    exact ⟨_, rfl, ⟨token, between, closing, rfl, hopen, hmatched⟩, rfl⟩
  · cases h

theorem groupText_cons (token : Token) (tokens : List Token) :
    (groupText (token :: tokens)).toList =
      (groupPiece token).toList ++ (groupText tokens).toList := by
  rw [groupText, List.map_cons, String.join_cons, String.toList_append, groupText]

theorem groupPiece_of_not_mark (h : ∀ c, token.lexeme ≠ .mark c) : groupPiece token = token.text := by
  rw [groupPiece, if_neg]
  rintro (hcolon | hcomma)
  · exact h _ hcolon
  · exact h _ hcomma

/-- A mark is scanned by itself, with or without a blank after it. -/
theorem scan_groupPiece_mark {c : Char} (htoken : token.lexeme = .mark c)
    (hc : Lexeme.isMark c = true) (text : List Char) :
    scan ((groupPiece token).toList ++ text) = .mark c :: scan text := by
  have hblank := Lexeme.isBlank_of_isMark hc
  have hmark : ∀ text, scan (c :: text) = .mark c :: scan text := by
    intro text
    rw [scan, if_neg (by simp [hblank]), if_pos hc]
  rw [groupPiece, Token.text, htoken, Lexeme.text]
  split
  · rw [String.toList_append, String.toList_singleton]
    change scan (c :: ' ' :: text) = _
    rw [hmark, Lexeme.scan_blank (by decide)]
  · rw [String.toList_singleton]
    exact hmark text

/-- The text of a group starts as its first token does. -/
theorem exists_groupText_cons (h : token.lexeme.Formed) (tokens : List Token) :
    ∃ c text, (groupText (token :: tokens)).toList = c :: text ∧ Text.isBlank c = false ∧
      (Lexeme.endsWord c = true ↔ token.lexeme.isWord = false) := by
  obtain ⟨c, text, htext, hblank, hends⟩ := h.exists_cons
  have hpiece : ∃ more, (groupPiece token).toList = c :: more := by
    rw [groupPiece]
    split
    · exact ⟨text ++ [' '], by rw [String.toList_append, Token.text, htext]; rfl⟩
    · exact ⟨text, htext⟩
  obtain ⟨more, hpiece⟩ := hpiece
  exact ⟨c, _, by rw [groupText_cons, hpiece]; rfl, hblank, hends⟩

/-- The text of formed tokens is scanned to them exactly if each of them ends before the next. -/
theorem scan_groupText_iff (hformed : ∀ token ∈ tokens, token.lexeme.Formed) :
    scan (groupText tokens).toList = tokens.map (·.lexeme) ↔
      (tokens.map (·.lexeme)).IsChain Lexeme.EndsBefore := by
  induction tokens with
  | nil => simp [groupText, Lexeme.scan_nil]
  | cons token tokens ih =>
    obtain ⟨hfirst, hmore⟩ := List.forall_mem_cons.1 hformed
    rw [groupText_cons, List.map_cons, List.isChain_cons, ← ih hmore]
    by_cases hmark : ∃ c, token.lexeme = .mark c
    · obtain ⟨c, htoken⟩ := hmark
      have hc : Lexeme.isMark c = true := by
        rw [htoken] at hfirst
        exact hfirst
      rw [scan_groupPiece_mark htoken hc, htoken, List.cons_inj_right]
      exact (and_iff_right fun next _ => Lexeme.endsBefore_mark hc next).symm
    · rw [not_exists] at hmark
      rw [groupPiece_of_not_mark hmark, Token.text]
      cases tokens with
      | nil => simp [groupText, hfirst.scan_text]
      | cons next tokens =>
        obtain ⟨c, text, htext, hblank, hends⟩ :=
          exists_groupText_cons (List.forall_mem_cons.1 hmore).1 tokens
        rw [htext]
        by_cases hbefore : token.lexeme.EndsBefore next.lexeme
        · rw [hfirst.scan_text_append hbefore.closed
            (fun hword => hends.2 (hbefore.notBothWords hword)), List.cons_inj_right]
          simp [hbefore]
        · have hne := hfirst.scan_text_append_ne hblank
            (fun h => hbefore ⟨h.1, fun hword => hends.1 (h.2 hword)⟩) text
          constructor
          · intro hscan
            rw [hscan] at hne
            exact absurd rfl hne
          · rintro ⟨hnext, -⟩
            exact absurd (hnext next.lexeme rfl) hbefore

/-- The text of a group has the characters of its tokens, blanks aside. -/
theorem filter_groupText (tokens : List Token) :
    (groupText tokens).toList.filter (!Text.isBlank ·) =
      (tokens.flatMap (·.text.toList)).filter (!Text.isBlank ·) := by
  induction tokens with
  | nil => rfl
  | cons token tokens ih =>
    have hpiece : (groupPiece token).toList.filter (!Text.isBlank ·) =
        token.text.toList.filter (!Text.isBlank ·) := by
      rw [groupPiece]
      split
      · rw [String.toList_append, List.filter_append]
        exact List.append_nil _
      · rfl
    rw [groupText_cons, List.flatMap_cons, List.filter_append, List.filter_append, hpiece, ih]

/-- A value in braces, read from the tokens of lines, is kept as a text with the characters of its
tokens, from the brace to the one that matches it. This text is scanned to these tokens exactly if no
literal or bracket in them is left open before another one, as none is on a single line, and no two
words stand side by side. -/
theorem scan_value_iff {construct : Construct} {last : Nat} {value : String}
    (hlines : ∀ found ∈ token :: tokens, ∃ line : Line, found ∈ line.tokens)
    (hopen : token.lexeme = .mark '{')
    (h : readValue construct last (token :: tokens) = .ok (value, rest)) :
    ∃ group, token :: tokens = group ++ rest ∧ IsGroup group ∧
      value.toList.filter (!Text.isBlank ·) =
        (group.flatMap (·.text.toList)).filter (!Text.isBlank ·) ∧
      (scan value.toList = group.map (·.lexeme) ↔
        (group.map (·.lexeme)).IsChain (fun left _ => left.Closed) ∧
        (group.map (·.lexeme)).IsChain fun left right =>
          left.isWord = true → right.isWord = false) ∧
      ∀ line : Line, token :: tokens <:+: line.tokens →
        (group.map (·.lexeme)).IsChain fun left _ => left.Closed := by
  obtain ⟨group, htokens, hgroup, rfl⟩ := exists_group_of_readValue hopen h
  have hformed : ∀ found ∈ group, found.lexeme.Formed := by
    intro found hfound
    obtain ⟨line, hline⟩ := hlines found (htokens ▸ List.mem_append_left _ hfound)
    exact Line.formed_of_mem_tokens hline
  refine ⟨group, htokens, hgroup, filter_groupText group, ?_, fun line hline => ?_⟩
  · rw [scan_groupText_iff hformed, Lexeme.isChain_endsBefore_iff]
  · rw [htokens] at hline
    exact Line.isChain_closed_of_infix ((List.prefix_append group rest).isInfix.trans hline)

/-- A map over two lines, and the start of the next field. -/
def spread : List Token :=
  Line.tokens ⟨4, "\x7b\"a\": [1, 2]; b"⟩ ++ Line.tokens ⟨5, ": \x7bc: 'd'\x7d\x7d 2: i32 x"⟩

/-- The map is kept as a text that gives its tokens again. -/
theorem scan_value_spread :
    readValue .field 6 spread = .ok ("\x7b\"a\": [1, 2];b: \x7bc: 'd'\x7d\x7d", spread.drop 13) ∧
      IsGroup (spread.take 13) ∧
      scan "\x7b\"a\": [1, 2];b: \x7bc: 'd'\x7d\x7d".toList = (spread.take 13).map (·.lexeme) := by
  have hspread : spread = ⟨.mark '{', 4⟩ :: spread.tail := by decide +kernel
  have hread : readValue .field 6 (⟨.mark '{', 4⟩ :: spread.tail) =
      .ok ("\x7b\"a\": [1, 2];b: \x7bc: 'd'\x7d\x7d", spread.drop 13) := by decide +kernel
  have hlines : ∀ found ∈ (⟨.mark '{', 4⟩ :: spread.tail : List Token),
      ∃ line : Line, found ∈ line.tokens := by
    intro found hfound
    rw [← hspread, spread, List.mem_append] at hfound
    rcases hfound with hfound | hfound
    · exact ⟨_, hfound⟩
    · exact ⟨_, hfound⟩
  obtain ⟨group, htokens, hgroup, -, hscan, -⟩ := scan_value_iff hlines rfl hread
  obtain rfl : group = spread.take 13 := by
    rw [← hspread] at htokens
    conv_lhs at htokens => rw [← List.take_append_drop 13 spread]
    exact (List.append_cancel_right htokens).symm
  rw [← hspread] at hread
  exact ⟨hread, hgroup, hscan.2 ⟨by decide +kernel, by decide +kernel⟩⟩

/-- A map without separator between its entries. -/
def runTogether : Document :=
  .ofSource "a.thrift" "const map<i32,i32> M = \x7b1: 2 3: 4\x7d"

/-- The value of the first entry and the key of the second run together. -/
theorem not_scan_value :
    runTogether.read = .ok { runTogether with
      definitions := [⟨⟨"M", 0⟩, .const "map<i32,i32>" "\x7b1: 23: 4\x7d"⟩] } ∧
    ¬∀ (construct : Construct) (last : Nat) (line : Line) (group rest : List Token) (value : String),
      line.tokens = group ++ rest → IsGroup group →
      readValue construct last line.tokens = .ok (value, rest) →
      scan value.toList = group.map (·.lexeme) := by
  constructor
  · decide +kernel
  · intro h
    have hread : readValue (.definition .const) 0 (Line.tokens ⟨0, "\x7b1: 2 3: 4\x7d"⟩) =
        .ok ("\x7b1: 23: 4\x7d", []) := by decide +kernel
    have hcons : Line.tokens ⟨0, "\x7b1: 2 3: 4\x7d"⟩ =
        ⟨.mark '{', 0⟩ :: (Line.tokens ⟨0, "\x7b1: 2 3: 4\x7d"⟩).tail := by decide +kernel
    have hgroup : IsGroup (Line.tokens ⟨0, "\x7b1: 2 3: 4\x7d"⟩) := by
      rw [hcons] at hread ⊢
      obtain ⟨group, htokens, hgroup, -⟩ := exists_group_of_readValue rfl hread
      rw [List.append_nil] at htokens
      exact htokens ▸ hgroup
    have hscan := h _ _ _ _ _ _ (List.append_nil _).symm hgroup hread
    revert hscan
    decide +kernel

end Grammar

end ThriftIdl

import ThriftIdl.Grammar.Word

/-!
Literal values: a word, a quoted string, or a group in braces. A group is kept as the text of its
tokens, with a blank after each `:` and `,`.
-/

namespace ThriftIdl.Grammar

/-- The tokens up to the brace that closes a group, and those after it. `depth` counts the braces
open inside the group. -/
def splitGroup (depth : Nat) : List Token → Option (List Token × List Token)
  | [] => none
  | token :: rest =>
    if token.lexeme = .mark '{' then
      (splitGroup (depth + 1) rest).map fun (inner, after) => (token :: inner, after)
    else if token.lexeme = .mark '}' then
      match depth with
      | 0 => some ([token], rest)
      | depth + 1 => (splitGroup depth rest).map fun (inner, after) => (token :: inner, after)
    else (splitGroup depth rest).map fun (inner, after) => (token :: inner, after)

def groupPiece (token : Token) : String :=
  if token.lexeme = .mark ':' ∨ token.lexeme = .mark ',' then token.text ++ " " else token.text

def groupText (tokens : List Token) : String := String.join (tokens.map groupPiece)

def readValue (construct : Construct) (last : Nat) :
    List Token → Reading (String × List Token)
  | [] => misshapen construct last (.expected .value none)
  | token :: rest =>
    match token.lexeme with
    | .word text => .ok (text, rest)
    | .literal text => .ok (text, rest)
    | .mark '{' =>
      match splitGroup 0 rest with
      | some (inner, after) => .ok (groupText (token :: inner), after)
      | none => misshapen construct token.line .groupNotClosed
    | .mark _ => misshapen construct token.line (.expected .value (some token.text))

theorem splitGroup_suffix {depth : Nat} {tokens inner after : List Token}
    (h : splitGroup depth tokens = some (inner, after)) : after <:+ tokens := by
  fun_induction splitGroup depth tokens generalizing inner with
  | case1 => cases h
  | case2 depth token rest _ ih =>
    obtain ⟨⟨inner, after⟩, hsplit, hpair⟩ := Option.map_eq_some_iff.1 h
    cases hpair
    exact (ih hsplit).trans (List.suffix_cons _ _)
  | case3 token rest =>
    cases h
    exact List.suffix_cons _ _
  | case4 token rest _ _ depth ih =>
    obtain ⟨⟨inner, after⟩, hsplit, hpair⟩ := Option.map_eq_some_iff.1 h
    cases hpair
    exact (ih hsplit).trans (List.suffix_cons _ _)
  | case5 depth token rest _ _ ih =>
    obtain ⟨⟨inner, after⟩, hsplit, hpair⟩ := Option.map_eq_some_iff.1 h
    cases hpair
    exact (ih hsplit).trans (List.suffix_cons _ _)

theorem readValue_leaves {construct : Construct} {last : Nat} {tokens rest : List Token}
    {value : String} (h : readValue construct last tokens = .ok (value, rest)) :
    Leaves tokens rest := by
  unfold readValue at h
  split at h
  · cases h
  · split at h
    · cases h
      exact leaves_cons List.suffix_rfl
    · cases h
      exact leaves_cons List.suffix_rfl
    · split at h
      · next hsplit =>
        cases h
        exact leaves_cons (splitGroup_suffix hsplit)
      · cases h
    · cases h

end ThriftIdl.Grammar

import ThriftIdl.Proofs.Grammar.Layout
import ThriftIdl.Proofs.Header
import ThriftIdl.Proofs.Joining
import ThriftIdl.Proofs.Text

/-!
Line breaks inside a block. A line of a document that is broken between two tokens inside a block
loses the separators before the break, since cleaning takes them from the end of every line. Where
none stand there, or where they only separate members, both documents are accepted with the same
definitions or both are rejected. In a literal in braces the separators are part of the value, and
then the definitions differ.
-/

namespace ThriftIdl

/-- A place where a line of a document may be broken: the lines before that line, its two parts, and
the lines after it. -/
structure Break where
  before : List String
  left : String
  right : String
  after : List String

namespace Break

variable (gap : Break)

/-- The lines with the line broken. -/
def broken : List String := gap.before ++ gap.left :: gap.right :: gap.after

/-- The lines with a blank in place of the line break. -/
def joined : List String := gap.before ++ (gap.left ++ " " ++ gap.right) :: gap.after

/-- The index of the line. -/
def number : Nat := gap.before.length

/-- The index in the joined lines of what stands on a broken line. -/
def renumber (line : Nat) : Nat := if line ≤ gap.number then line else line - 1

/-- The break parts no token, and there is no comment on its line. -/
structure Parts : Prop where
  parted : Lexeme.scan (gap.left ++ " " ++ gap.right).toList =
    Lexeme.scan gap.left.toList ++ Lexeme.scan gap.right.toList
  plain_left : Line.uncomment none gap.left.toList = gap.left.toList
  plain_right : Line.uncomment none gap.right.toList = gap.right.toList
  plain : Line.uncomment none (gap.left ++ " " ++ gap.right).toList =
    (gap.left ++ " " ++ gap.right).toList

end Break

/-- The definitions that the raw lines of a document hold, whatever namespaces it has. -/
def Document.definitionsIn (lines : List String) : Grammar.Reading (List Definition) :=
  Grammar.readDefinitions [] (Header.read [] (Line.meaningful lines)).rest

theorem Document.readDefinitions_eq (document : Document) :
    document.readDefinitions = definitionsIn document.lines >>= fun definitions =>
      if definitions.isEmpty then .error ⟨lastLine document.lines, .noDefinitions⟩
      else .ok definitions := by
  obtain ⟨-, hrest⟩ :=
    Header.read_notices_rest document.namespaces [] (Line.meaningful document.lines)
  rw [readDefinitions, definitionsIn, header, hrest]

/-- The tokens of a raw line, once it is cleaned. -/
def Line.tokensOf (number : Nat) (raw : String) : List Token :=
  (Lexeme.scan (Line.clean raw.toList)).map (⟨·, number⟩)

open Grammar

namespace Break

variable (gap : Break)

/-- The stage of reading before the line. -/
def stage : Reading Stage :=
  (Stage.between []).after (Header.read [] (Line.meaningful gap.before)).rest

/-- If the lines before it can be read, the first part of the line leads inside a block of which the
tokens so far are given, and the braces that are open in them. -/
def Leads (pending : Pending) (depth : Nat) (tokens : List Token) : Prop :=
  ∀ stage, gap.stage = .ok stage →
    stage.take gap.number (Line.tokensOf gap.number gap.left) = .ok (.inside pending depth tokens)

/-- The separators that are lost at the break. -/
def lost : List Token :=
  (Line.lost gap.left.toList gap.right.toList).map fun c => ⟨.mark c, gap.number⟩

/-- The tokens of the second part of the line. -/
def next : List Token := Line.tokensOf gap.number gap.right

/-- All tokens after those lost at the break. -/
def following : List Token :=
  gap.next ++ (Line.meaningfulFrom (gap.number + 1) gap.after).flatMap Line.tokens

end Break

/-- The tokens are the whole of a body. -/
def Grammar.Pending.Whole (pending : Pending) (tokens : List Token) : Prop :=
  ∃ last body, readBody pending.kind pending.base? ⟨tokens, last, 0⟩ = .ok body

/-- The separators lost at the break stand outside braces, before a token that continues no member,
and after members that are complete, or in lines that can be read when the break is gone. -/
structure Break.Separates (gap : Break) (pending : Pending) (depth : Nat) (tokens : List Token) :
    Prop where
  outside : depth = 0
  fresh : Fresh gap.following
  complete : pending.Whole tokens ∨
    ∃ definitions, Document.definitionsIn gap.joined = .ok definitions

/-- Both documents could be read, and the definitions of the second are those of the first with
their lines renumbered; or none of both could be read. -/
def Alike (f : Nat → Nat) : Except Fault Document → Except Fault Document → Prop
  | .ok first, .ok second => second.definitions = first.definitions.map (Definition.renumber f)
  | .error _, .error _ => True
  | _, _ => False

namespace Line

/-- A line that cleaning leaves nothing of has no tokens, and one that it leaves has its tokens. -/
theorem tokens_of_ofRaw? (number : Nat) (raw : String) :
    (ofRaw? number raw = none ∧ tokensOf number raw = []) ∨
      ∃ line, ofRaw? number raw = some line ∧ line.number = number ∧
        line.tokens = tokensOf number raw ∧ line.text.toList = clean raw.toList := by
  rw [ofRaw?, tokensOf]
  cases hclean : clean raw.toList with
  | nil => exact Or.inl ⟨rfl, by rw [Lexeme.scan_nil]; rfl⟩
  | cons c text =>
    refine Or.inr ⟨_, rfl, rfl, ?_, String.toList_ofList⟩
    rw [tokens, String.toList_ofList]

end Line

namespace Grammar.Stage

/-- The line after which reading stands inside a block may have no tokens only inside it. -/
theorem exists_inside_of_take_nil {stage : Stage} {number inside : Nat} {pending : Pending}
    {tokens : List Token} (h : stage.take number [] = .ok (.inside pending inside tokens)) :
    ∃ depth before, stage = .inside pending depth before := by
  cases stage with
  | between taken => cases h
  | awaiting waiting => cases h
  | inside current depth before =>
    cases h
    exact ⟨inside, before, rfl⟩

/-- A raw line is taken with the tokens it has, and without tokens it makes no difference inside a
block. -/
theorem run_ofRaw? {stage : Stage} {number : Nat} {raw : String}
    (h : Line.tokensOf number raw = [] →
      ∃ pending depth before, stage = .inside pending depth before)
    (lines : List Line) :
    stage.run ((Line.ofRaw? number raw).toList ++ lines) =
      stage.take number (Line.tokensOf number raw) >>= fun next => next.run lines := by
  rcases Line.tokens_of_ofRaw? number raw with ⟨hnone, htokens⟩ | ⟨line, hsome, hnumber, htokens, -⟩
  · obtain ⟨pending, depth, before, rfl⟩ := h htokens
    rw [hnone, htokens]
    change _ = Stage.run (.inside pending depth (before ++ [])) lines
    rw [List.append_nil]
    rfl
  · subst hnumber
    rw [hsome, ← htokens]
    rfl

end Grammar.Stage

/-- A definition starts with the word of its kind. -/
theorem Grammar.exists_kind_of_begin {taken : List Definition} {start : Nat} {tokens : List Token}
    {next : Stage} (h : begin taken start tokens = .ok next) :
    ∃ kind line rest, tokens = ⟨.word (Kind.word kind), line⟩ :: rest := by
  rcases tokens with _ | ⟨⟨word | text | c, line⟩, rest⟩
  · cases h
  · simp only [begin] at h
    cases hkind : Kind.ofWord? word with
    | none =>
      rw [hkind] at h
      cases h
    | some kind => exact ⟨kind, line, rest, by rw [Kind.ofWord?_eq_some_iff.1 hkind]⟩
  · cases h
  · cases h

namespace Break

variable {gap : Break} {pending : Pending} {depth : Nat} {tokens : List Token}

theorem isSeparator_of_mem_lost {token : Token} (h : token ∈ gap.lost) :
    token.isSeparator = true := by
  obtain ⟨c, hc, rfl⟩ := List.mem_map.1 h
  have hseparator := Line.isSeparator_of_mem_lost hc
  simp only [Line.isSeparator, Bool.or_eq_true, beq_iff_eq] at hseparator
  rcases hseparator with rfl | rfl
  · rfl
  · rfl

/-- The joined line has the tokens of both parts, and those lost at the break between them. -/
theorem tokensOf_joined (h : gap.Parts) :
    Line.tokensOf gap.number (gap.left ++ " " ++ gap.right) =
      Line.tokensOf gap.number gap.left ++ (gap.lost ++ gap.next) := by
  have htext : (gap.left ++ " " ++ gap.right).toList =
      gap.left.toList ++ ' ' :: gap.right.toList := by
    simp
  have hparted := h.parted
  have hplain := h.plain
  rw [htext] at hparted hplain
  have hscan := Line.scan_clean_joined hparted h.plain_left h.plain_right hplain
  rw [Line.tokensOf, htext, hscan, List.map_append, List.map_append, List.map_map]
  rfl

/-- A line that starts as the first part of the broken one ends the header, if no line before it
does. -/
theorem rest_append_ofRaw? (hleads : gap.Leads pending depth tokens) {raw : String}
    {more : List Token}
    (htokens : Line.tokensOf gap.number raw = Line.tokensOf gap.number gap.left ++ more)
    (lines : List Line) :
    (Header.read [] (Line.meaningful gap.before ++
        ((Line.ofRaw? gap.number raw).toList ++ lines))).rest =
      (Header.read [] (Line.meaningful gap.before)).rest ++
        ((Line.ofRaw? gap.number raw).toList ++ lines) := by
  rw [Header.rest_append]
  split
  · next hnone =>
    -- No line before starts a definition. This one leads inside a block, so it does.
    have hstage : gap.stage = .ok (.between []) := by rw [stage, hnone]; rfl
    obtain ⟨kind, number, rest, hleft⟩ := exists_kind_of_begin (hleads _ hstage)
    rw [hleft] at htokens
    rcases Line.tokens_of_ofRaw? gap.number raw with ⟨-, hnil⟩ | ⟨line, hsome, -, -, htext⟩
    · rw [hnil] at htokens
      cases htokens
    · have hscan : ∃ rest, Lexeme.scan (Line.clean raw.toList) = .word kind.word :: rest := by
        obtain ⟨lexeme, rest, hscan, hlexeme, -⟩ := List.map_eq_cons_iff.1 htokens
        cases hlexeme
        exact ⟨rest, hscan⟩
      obtain ⟨lexemes, hscan⟩ := hscan
      have heffect := Header.effect?_of_scan Line.isBlank_of_head?_clean hscan
      rw [← htext, String.ofList_toList] at heffect
      rw [hnone, hsome]
      change (Header.read [] (line :: lines)).rest = line :: lines
      rw [Header.read, heffect]
  · rfl

/-- The lines of definitions in the broken document, each under its index in the joined one. -/
theorem rest_broken (hleads : gap.Leads pending depth tokens) :
    (Header.read [] (Line.meaningful gap.broken)).rest.map (Line.renumber gap.renumber) =
      (Header.read [] (Line.meaningful gap.before)).rest ++
        ((Line.ofRaw? gap.number gap.left).toList ++
          ((Line.ofRaw? gap.number gap.right).toList ++
            Line.meaningfulFrom (gap.number + 1) gap.after)) := by
  have hleft : gap.renumber gap.number = gap.number := by simp [renumber]
  have hright : gap.renumber (gap.number + 1) = gap.number := by simp [renumber]
  have hbefore : (Line.meaningful gap.before).map (Line.renumber gap.renumber) =
      Line.meaningful gap.before := by
    apply Line.meaningfulFrom_renumber
    intro i hi
    rw [renumber, if_pos (by rw [number]; omega)]
  have hafter : (Line.meaningfulFrom (gap.number + 1 + 1) gap.after).map
      (Line.renumber gap.renumber) = Line.meaningfulFrom (gap.number + 1) gap.after := by
    apply Line.meaningfulFrom_renumber
    intro i _
    rw [renumber, if_neg (by omega)]
    omega
  have hlines : (Line.meaningful gap.broken).map (Line.renumber gap.renumber) =
      Line.meaningful gap.before ++ ((Line.ofRaw? gap.number gap.left).toList ++
        ((Line.ofRaw? gap.number gap.right).toList ++
          Line.meaningfulFrom (gap.number + 1) gap.after)) := by
    rw [Line.meaningful, broken, Line.meaningfulFrom_append, Nat.zero_add, ← number,
      Line.meaningfulFrom, Line.meaningfulFrom, List.map_append, List.map_append, List.map_append,
      Line.ofRaw?_renumber, Line.ofRaw?_renumber, hleft, hright, hafter]
    exact congrArg (· ++ _) hbefore
  rw [← Header.rest_renumber, hlines]
  exact rest_append_ofRaw? hleads (List.append_nil _).symm _

theorem rest_joined (h : gap.Parts) (hleads : gap.Leads pending depth tokens) :
    (Header.read [] (Line.meaningful gap.joined)).rest =
      (Header.read [] (Line.meaningful gap.before)).rest ++
        ((Line.ofRaw? gap.number (gap.left ++ " " ++ gap.right)).toList ++
          Line.meaningfulFrom (gap.number + 1) gap.after) := by
  have hlines : Line.meaningful gap.joined = Line.meaningful gap.before ++
      ((Line.ofRaw? gap.number (gap.left ++ " " ++ gap.right)).toList ++
        Line.meaningfulFrom (gap.number + 1) gap.after) := by
    rw [Line.meaningful, joined, Line.meaningfulFrom_append, Nat.zero_add, ← number,
      Line.meaningfulFrom]
    rfl
  rw [hlines]
  exact rest_append_ofRaw? hleads (tokensOf_joined h) _

/-- The definitions of the broken document, under their lines in the joined one. -/
def renumberedDefinitions (gap : Break) : Reading (List Definition) :=
  renumbered gap.renumber (List.map (Definition.renumber gap.renumber))
    (Document.definitionsIn gap.broken)

theorem renumberedDefinitions_eq (gap : Break) :
    gap.renumberedDefinitions = readDefinitions []
      ((Header.read [] (Line.meaningful gap.broken)).rest.map (Line.renumber gap.renumber)) :=
  (readDefinitions_renumber [] _).symm

/-- If the lines before it can be read, the broken line is taken like the joined one without the
separators that are lost. -/
theorem readings (h : gap.Parts) (hleads : gap.Leads pending depth tokens) :
    (∃ violation, gap.renumberedDefinitions = .error violation ∧
        Document.definitionsIn gap.joined = .error violation) ∨
      blockPart 0 tokens = .opened depth tokens ∧
        gap.renumberedDefinitions =
          (pending.enter depth tokens gap.next >>= fun stage =>
            stage.run (Line.meaningfulFrom (gap.number + 1) gap.after)) ∧
        Document.definitionsIn gap.joined =
          (pending.enter depth (tokens ++ gap.lost) gap.next >>= fun stage =>
            stage.run (Line.meaningfulFrom (gap.number + 1) gap.after)) := by
  rw [renumberedDefinitions_eq, Document.definitionsIn, rest_broken hleads, rest_joined h hleads,
    readDefinitions_eq_run, readDefinitions_eq_run, Stage.run_append, Stage.run_append, ← stage]
  cases hstage : gap.stage with
  | error violation => exact Or.inl ⟨violation, rfl, rfl⟩
  | ok before =>
    have hinside := hleads before hstage
    have hbalanced : blockPart 0 tokens = .opened depth tokens :=
      Stage.balanced_of_take (@Stage.balanced_of_after (.between []) _ _ trivial hstage) hinside
    have hempty : Line.tokensOf gap.number gap.left = [] →
        ∃ pending depth tokens, before = .inside pending depth tokens := by
      intro hnil
      rw [hnil] at hinside
      obtain ⟨depth, tokens, hbefore⟩ := Stage.exists_inside_of_take_nil hinside
      exact ⟨pending, depth, tokens, hbefore⟩
    have hlost : blockPart depth gap.lost = .opened depth gap.lost :=
      blockPart_of_plain (fun token htoken =>
        ne_brace_of_isSeparator (isSeparator_of_mem_lost htoken)) depth
    have hjoined : Line.tokensOf gap.number (gap.left ++ " " ++ gap.right) = [] →
        ∃ pending depth tokens, before = .inside pending depth tokens := by
      intro hnil
      rw [tokensOf_joined h] at hnil
      exact hempty (List.append_eq_nil_iff.1 hnil).1
    refine Or.inr ⟨hbalanced, ?_, ?_⟩
    · rw [ok_bind, Stage.run_ofRaw? hempty, hinside, ok_bind,
        Stage.run_ofRaw? fun _ => ⟨pending, depth, tokens, rfl⟩]
      rfl
    · rw [ok_bind, Stage.run_ofRaw? hjoined, tokensOf_joined h, Stage.take_append hinside,
        Pending.enter_append hlost]

/-- The separators that are lost can be left out of a body that is read. -/
theorem replaces_without_lost (hbalanced : Balanced tokens) :
    pending.Replaces (tokens ++ gap.lost) tokens := by
  intro more last body hfresh hbody
  rw [List.append_assoc] at hbody
  exact readBody_of_separators hbalanced (fun _ => isSeparator_of_mem_lost) hfresh hbody

/-- After whole members they can be put in. -/
theorem replaces_with_lost (hbalanced : Balanced tokens) (hwhole : pending.Whole tokens) :
    pending.Replaces tokens (tokens ++ gap.lost) := by
  intro more last body hfresh hbody
  obtain ⟨end', whole, hread⟩ := hwhole
  rw [List.append_assoc, readBody_eq_of_whole hbalanced hread
    (fun _ => isSeparator_of_mem_lost) hfresh]
  exact hbody

/-- Where no separators are lost, or where they separate members, both documents hold the same
definitions. -/
theorem definitions_iff (h : gap.Parts) (hleads : gap.Leads pending depth tokens)
    (hlost : gap.lost = [] ∨ gap.Separates pending depth tokens) (definitions : List Definition) :
    gap.renumberedDefinitions = .ok definitions ↔
      Document.definitionsIn gap.joined = .ok definitions := by
  rcases readings h hleads with ⟨violation, hbroken, hjoined⟩ | ⟨hbalanced, hbroken, hjoined⟩
  · rw [hbroken, hjoined]
  rcases hlost with hnone | hseparates
  · rw [hbroken, hjoined, hnone, List.append_nil]
  obtain rfl := hseparates.outside
  -- The tokens of the block so far are replaced by those with the separators, or the other way, and
  -- the lines that follow are read from there.
  have hrun : ∀ {left right definitions}, pending.Replaces left right →
      (pending.enter 0 left gap.next >>= fun stage =>
        stage.run (Line.meaningfulFrom (gap.number + 1) gap.after)) = .ok definitions →
      (pending.enter 0 right gap.next >>= fun stage =>
        stage.run (Line.meaningfulFrom (gap.number + 1) gap.after)) = .ok definitions := by
    intro left right definitions hreplaces hleft
    rw [← List.append_nil left] at hleft
    rw [← List.append_nil right]
    exact Pending.run_of_replaces hreplaces hseparates.fresh hleft
  have hback : ∀ {definitions}, Document.definitionsIn gap.joined = .ok definitions →
      gap.renumberedDefinitions = .ok definitions := by
    intro definitions hread
    rw [hjoined] at hread
    rw [hbroken]
    exact hrun (replaces_without_lost hbalanced) hread
  refine ⟨fun hread => ?_, hback⟩
  rcases hseparates.complete with hwhole | ⟨accepted, haccepted⟩
  · rw [hbroken] at hread
    rw [hjoined]
    exact hrun (replaces_with_lost hbalanced hwhole) hread
  · -- The joined document is accepted, so the broken one has the same definitions.
    have hsame := (hback haccepted).symm.trans hread
    cases hsame
    exact haccepted

/-- A document whose line is broken inside a block and the one with a blank in place of the break
are both accepted, with the same definitions, or both rejected, if no separators are lost at the
break or if they separate members. -/
theorem alike (document : Document) (h : gap.Parts) (hleads : gap.Leads pending depth tokens)
    (hlost : gap.lost = [] ∨ gap.Separates pending depth tokens) :
    Alike gap.renumber { document with lines := gap.broken }.read
      { document with lines := gap.joined }.read := by
  have hiff := definitions_iff h hleads hlost
  rw [renumberedDefinitions] at hiff
  rw [Document.read, Document.read, Document.readDefinitions_eq, Document.readDefinitions_eq]
  dsimp only
  cases hbroken : Document.definitionsIn gap.broken with
  | error violation =>
    cases hjoined : Document.definitionsIn gap.joined with
    | error violation => trivial
    | ok definitions =>
      have hread := (hiff definitions).2 hjoined
      rw [hbroken] at hread
      cases hread
  | ok definitions =>
    rw [hbroken] at hiff
    rw [(hiff _).1 rfl, ok_bind, ok_bind]
    cases definitions with
    | nil => trivial
    | cons definition definitions => rfl

/-- A line broken between two members of a struct. -/
def member : Break where
  before := ["struct S \x7b"]
  left := "  1: list<i32> a = [1, 2],"
  right := "2: optional string b;"
  after := ["\x7d"]

/-- The separator lost at the break stands between members, and both documents are accepted. -/
theorem alike_member :
    member.lost ≠ [] ∧
      { Document.ofSource "a.thrift" "" with lines := member.broken }.read.isOk = true ∧
      Alike member.renumber
        { Document.ofSource "a.thrift" "" with lines := member.broken }.read
        { Document.ofSource "a.thrift" "" with lines := member.joined }.read := by
  have hparts : member.Parts := ⟨by decide +kernel, by decide, by decide, by decide⟩
  have hstage : member.stage = .ok (.inside ⟨[], .struct, ⟨"S", 0⟩, none, 0⟩ 0 []) := by
    decide +kernel
  have hleads : member.Leads ⟨[], .struct, ⟨"S", 0⟩, none, 0⟩ 0
      (Line.tokensOf 1 "  1: list<i32> a = [1, 2]") := by
    intro stage h
    cases hstage.symm.trans h
    decide +kernel
  have hfresh : Fresh member.following := by
    constructor
    all_goals
      rw [Lacks]
      decide +kernel
  have hwhole : Pending.Whole ⟨[], .struct, ⟨"S", 0⟩, none, 0⟩
      (Line.tokensOf 1 "  1: list<i32> a = [1, 2]") :=
    ⟨1, .struct [⟨1, .unstated, "list<i32>", "a", some "[1, 2]", 1⟩], by decide +kernel⟩
  exact ⟨by decide +kernel, by decide +kernel,
    alike _ hparts hleads (Or.inr ⟨rfl, hfresh, Or.inl hwhole⟩)⟩

/-- A line broken in the default value of a field. -/
def literal : Break where
  before := ["struct S \x7b"]
  left := "  1: map<string,i32> m = \x7b\"a\": 1,"
  right := "\"b\": 2\x7d"
  after := ["\x7d"]

/-- The lines as they are read, with the default value. -/
def literalRead (lines : List String) (value : String) : Document where
  name := "a.thrift"
  lines := lines
  namespaces := [("default", "a")]
  definitions := [⟨⟨"S", 0⟩, .struct [⟨1, .unstated, "map<string,i32>", "m", some value, 1⟩]⟩]

/-- In a literal in braces the separator that is lost at the break is part of the value. -/
theorem differ_literal :
    literal.Parts ∧ (∃ pending depth tokens, literal.Leads pending depth tokens) ∧
      { Document.ofSource "a.thrift" "" with lines := literal.broken }.read =
        .ok (literalRead literal.broken "\x7b\"a\": 1\"b\": 2\x7d") ∧
      { Document.ofSource "a.thrift" "" with lines := literal.joined }.read =
        .ok (literalRead literal.joined "\x7b\"a\": 1, \"b\": 2\x7d") ∧
      (literalRead literal.broken "\x7b\"a\": 1\"b\": 2\x7d").definitions.map
          (Definition.renumber fun _ => 0) ≠
        (literalRead literal.joined "\x7b\"a\": 1, \"b\": 2\x7d").definitions.map
          (Definition.renumber fun _ => 0) := by
  have hstage : literal.stage = .ok (.inside ⟨[], .struct, ⟨"S", 0⟩, none, 0⟩ 0 []) := by
    decide +kernel
  have hleads : literal.Leads ⟨[], .struct, ⟨"S", 0⟩, none, 0⟩ 1
      (Line.tokensOf 1 literal.left) := by
    intro stage h
    cases hstage.symm.trans h
    decide +kernel
  refine ⟨⟨by decide +kernel, by decide, by decide, by decide⟩, ⟨_, _, _, hleads⟩, ?_, ?_, ?_⟩
  · decide +kernel
  · decide +kernel
  · decide +kernel

end Break

end ThriftIdl

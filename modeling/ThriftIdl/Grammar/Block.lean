import ThriftIdl.Grammar.Word
import ThriftIdl.Line.Cursor

/-!
Blocks: the tokens between the outermost braces of a definition, over as many lines as they take. A
block opens on the line of its definition or with the next meaningful line, and nothing follows its
closing brace on the same line. The lines come from a list, or from a cursor that hands them out,
and then the open braces are counted token by token.
-/

namespace ThriftIdl.Grammar

/-- The tokens of a block, the line of its closing brace, and how many further lines it
takes. -/
structure Block where
  tokens : List Token
  last : Nat
  used : Nat

/-- What the tokens of a line do to an open block: they leave it open, with braces open inside
it, or close it, with the tokens after the brace. -/
inductive BlockPart where
  | opened (depth : Nat) (tokens : List Token)
  | closed (tokens : List Token) (last : Nat) (after : List Token)

def BlockPart.cons (token : Token) : BlockPart → BlockPart
  | opened depth tokens => opened depth (token :: tokens)
  | closed tokens last after => closed (token :: tokens) last after

/-- The part of a block that tokens make up, inside which `depth` braces are open. -/
def blockPart (depth : Nat) : List Token → BlockPart
  | [] => .opened depth []
  | token :: rest =>
    if token.lexeme = .mark '{' then (blockPart (depth + 1) rest).cons token
    else if token.lexeme = .mark '}' then
      match depth with
      | 0 => .closed [] token.line rest
      | depth + 1 => (blockPart depth rest).cons token
    else (blockPart depth rest).cons token

/-- The rest of an open block: the tokens left on its line, and the lines that follow. `start` is
the line to report if the block is never closed. -/
def closeBlock (kind : Kind) (start depth : Nat) (tokens : List Token) (lines : List Line) :
    Reading Block :=
  match blockPart depth tokens with
  | .closed body last [] => .ok ⟨body, last, 0⟩
  | .closed _ _ (token :: _) =>
    misshapen (.definition kind) token.line (.afterBlock token.text)
  | .opened depth body =>
    match lines with
    | [] => misshapen (.definition kind) start .blockNotClosed
    | line :: rest => do
      let block ← closeBlock kind start depth line.tokens rest
      .ok ⟨body ++ block.tokens, block.last, block.used + 1⟩

/-- A block whose first token must be its opening brace. -/
def openBlock (kind : Kind) (start : Nat) (tokens : List Token) (lines : List Line) :
    Reading Block :=
  match tokens with
  | [] => misshapen (.definition kind) start .blockNotOpened
  | token :: rest =>
    if token.lexeme = .mark '{' then closeBlock kind start 0 rest lines
    else
      misshapen (.definition kind) token.line (.expected .openingBrace (some token.text))

/-- The block of a definition that starts at `start`: the tokens left on its line, and the lines
that follow. -/
def readBlock (kind : Kind) (start : Nat) (tokens : List Token) (lines : List Line) :
    Reading Block :=
  match tokens, lines with
  | [], line :: rest => do
    let block ← openBlock kind start line.tokens rest
    .ok { block with used := block.used + 1 }
  | tokens, lines => openBlock kind start tokens lines

/-- What the reader of a block has counted: the braces that are open, the tokens inside the block,
and the line of the brace that closes it. -/
structure Counter where
  depth : Int
  tokens : List Token
  closed? : Option Nat

namespace Counter

def zero : Counter := ⟨0, [], none⟩

/-- Count one more token. The outermost braces are not inside the block, and no token follows
it. -/
def take (kind : Kind) (counter : Counter) (token : Token) : Reading Counter :=
  match counter.closed? with
  | some _ => misshapen (.definition kind) token.line (.afterBlock token.text)
  | none =>
    if token.lexeme = .mark '{' then
      if counter.depth + 1 = 1 then .ok ⟨counter.depth + 1, counter.tokens, none⟩
      else .ok ⟨counter.depth + 1, counter.tokens ++ [token], none⟩
    else if token.lexeme = .mark '}' then
      if counter.depth - 1 = 0 then .ok ⟨counter.depth - 1, counter.tokens, some token.line⟩
      else .ok ⟨counter.depth - 1, counter.tokens ++ [token], none⟩
    else .ok ⟨counter.depth, counter.tokens ++ [token], none⟩

end Counter

/-- A block as it is delivered: its tokens, the line of its closing brace, and the cursor after it.
-/
structure Collected where
  tokens : List Token
  last : Nat
  cursor : Line.Cursor

set_option linter.unusedVariables false in
/-- Count the tokens left on a line and those of the lines that follow, up to the end of the line
on which the block is closed. -/
def gather (kind : Kind) (start : Nat) (counter : Counter) (tokens : List Token)
    (cursor : Line.Cursor) : Reading Collected :=
  match tokens with
  | token :: tokens =>
    match counter.take kind token with
    | .error violation => .error violation
    | .ok next => gather kind start next tokens cursor
  | [] =>
    match counter.closed? with
    | some last => .ok ⟨counter.tokens, last, cursor⟩
    | none =>
      match hline : cursor.advance with
      | (none, _) => misshapen (.definition kind) start .blockNotClosed
      | (some line, after) => gather kind start counter line.tokens after
termination_by (cursor.rest.length, tokens.length)
decreasing_by
  · exact Prod.Lex.right _ (Nat.lt_succ_self tokens.length)
  · exact Prod.Lex.left _ _ (Line.Cursor.length_rest_lt hline)

/-- Count the tokens of a block, the first of which must be its opening brace. -/
def gatherOpened (kind : Kind) (start : Nat) (tokens : List Token) (cursor : Line.Cursor) :
    Reading Collected :=
  match tokens.head? with
  | some token =>
    if token.lexeme = .mark '{' then gather kind start .zero tokens cursor
    else misshapen (.definition kind) token.line (.expected .openingBrace (some token.text))
  | none => gather kind start .zero tokens cursor

/-- Read the block of a definition from the tokens left on its line, or else from the next line that
the cursor delivers. -/
def collect (kind : Kind) (start : Nat) (tokens : List Token) (cursor : Line.Cursor) :
    Reading Collected :=
  match tokens with
  | [] =>
    match cursor.advance with
    | (none, _) => misshapen (.definition kind) start .blockNotOpened
    | (some line, after) => gatherOpened kind start line.tokens after
  | token :: tokens => gatherOpened kind start (token :: tokens) cursor

end ThriftIdl.Grammar

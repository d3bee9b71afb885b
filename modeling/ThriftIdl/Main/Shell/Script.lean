import ThriftIdl.Text.Blank

/-!
A stand-in for the system's shell, which runs the scripts that generators are. The shell is no part
of the command: to it a generator is any program, and only the outermost layer, which cannot start a
process, takes its scripts to be programs of this kind.

Scripts are in a small part of the shell language: commands with redirections, joined by `|`, `&&`,
`||`, `;` and line ends. Words may be quoted and hold parameters.
-/

namespace ThriftIdl.Shell

/-- A piece of a word. A quoted piece is not split into fields. -/
inductive Piece where
  | text (chars : List Char) (quoted : Bool)
  | parameter (name : String) (quoted : Bool)
deriving DecidableEq

/-- A word before its parameters are replaced. -/
abbrev Word := List Piece

inductive Direction where
  | read
  | write
  | append
  | duplicate
deriving DecidableEq

/-- What parts words from each other. -/
inductive Symbol where
  | word (word : Word)
  | redirect (descriptor : Nat) (direction : Direction)
  | pipe
  | andThen
  | orElse
  | ended
deriving DecidableEq

structure Redirection where
  descriptor : Nat
  direction : Direction
  target : Word

structure Command where
  words : List Word
  redirections : List Redirection

/-- When a pipeline runs, given how the one before it ended. -/
inductive Condition where
  | always
  | afterSuccess
  | afterFailure
deriving DecidableEq

/-- Commands whose outputs are the inputs of the next, and when they run. -/
structure Pipeline where
  condition : Condition
  commands : List Command

abbrev Script := List Pipeline

/-- The characters that end a word outside quotes. -/
def endsWord (c : Char) : Bool :=
  c == ' ' || c == '\t' || c == '\n' || c == ';' || c == '&' || c == '|' || c == '<' ||
    c == '>' || c == '(' || c == ')'

def splitParameter : List Char → Option (String × List Char)
  | '{' :: rest =>
    match rest.dropWhile (· != '}') with
    | '}' :: after => some (String.ofList (rest.takeWhile (· != '}')), after)
    | _ => none
  | c :: rest =>
    if c.isAlpha || c == '_' then
      let isPart := fun d : Char => d.isAlphanum || d == '_'
      some (String.ofList (c :: rest.takeWhile isPart), rest.dropWhile isPart)
    else if c.isDigit || "@*#?$!".toList.contains c then some (String.singleton c, rest)
    else none
  | [] => none

/-- The inside of a double-quoted text, and what follows it. -/
def splitQuoted (fuel : Nat) (text : List Char) : Word × List Char :=
  match fuel with
  | 0 => ([], text)
  | fuel + 1 =>
    match text with
    | [] => ([], [])
    | '"' :: rest => ([], rest)
    | '\\' :: '\n' :: rest => splitQuoted fuel rest
    | '\\' :: c :: rest =>
      let (pieces, after) := splitQuoted fuel rest
      let chars := if "\"\\$`".toList.contains c then [c] else ['\\', c]
      (.text chars true :: pieces, after)
    | '$' :: rest =>
      match splitParameter rest with
      | some (name, rest) =>
        let (pieces, after) := splitQuoted fuel rest
        (.parameter name true :: pieces, after)
      | none =>
        let (pieces, after) := splitQuoted fuel rest
        (.text ['$'] true :: pieces, after)
    | c :: rest =>
      let (pieces, after) := splitQuoted fuel rest
      (.text [c] true :: pieces, after)

def splitWord (fuel : Nat) (text : List Char) : Word × List Char :=
  match fuel with
  | 0 => ([], text)
  | fuel + 1 =>
    match text with
    | [] => ([], [])
    | '\'' :: rest =>
      let (pieces, after) := splitWord fuel ((rest.dropWhile (· != '\'')).drop 1)
      (.text (rest.takeWhile (· != '\'')) true :: pieces, after)
    | '"' :: rest =>
      let (inner, rest) := splitQuoted fuel rest
      let (pieces, after) := splitWord fuel rest
      (.text [] true :: inner ++ pieces, after)
    | '\\' :: '\n' :: rest => splitWord fuel rest
    | '\\' :: c :: rest =>
      let (pieces, after) := splitWord fuel rest
      (.text [c] true :: pieces, after)
    | '$' :: rest =>
      match splitParameter rest with
      | some (name, rest) =>
        let (pieces, after) := splitWord fuel rest
        (.parameter name false :: pieces, after)
      | none =>
        let (pieces, after) := splitWord fuel rest
        (.text ['$'] false :: pieces, after)
    | c :: rest =>
      if endsWord c then ([], c :: rest)
      else
        let (pieces, after) := splitWord fuel rest
        (.text [c] false :: pieces, after)

/-- The file descriptor that an unquoted word before a redirection gives. -/
def descriptor? (word : Word) : Option Nat :=
  match word with
  | [.text [c] false] => if c.isDigit then some (c.toNat - '0'.toNat) else none
  | _ => none

def symbols (fuel : Nat) (text : List Char) : List Symbol :=
  match fuel with
  | 0 => []
  | fuel + 1 =>
    match text with
    | [] => []
    | ' ' :: rest => symbols fuel rest
    | '\t' :: rest => symbols fuel rest
    | '\\' :: '\n' :: rest => symbols fuel rest
    | '\n' :: rest => .ended :: symbols fuel rest
    | ';' :: rest => .ended :: symbols fuel rest
    | '&' :: '&' :: rest => .andThen :: symbols fuel rest
    | '|' :: '|' :: rest => .orElse :: symbols fuel rest
    | '&' :: rest => .ended :: symbols fuel rest
    | '|' :: rest => .pipe :: symbols fuel rest
    | '>' :: rest => redirection fuel 1 ('>' :: rest)
    | '<' :: rest => redirection fuel 0 ('<' :: rest)
    | '#' :: rest => symbols fuel (rest.dropWhile (· != '\n'))
    | c :: rest =>
      if endsWord c then symbols fuel rest
      else
        let (word, after) := splitWord fuel (c :: rest)
        match descriptor? word, after with
        | some descriptor, '>' :: _ => redirection fuel descriptor after
        | some descriptor, '<' :: _ => redirection fuel descriptor after
        | _, _ => .word word :: symbols fuel after
where
  /-- The symbols of a text that starts with the sign of a redirection. -/
  redirection (fuel descriptor : Nat) : List Char → List Symbol
    | '>' :: '>' :: rest => .redirect descriptor .append :: symbols fuel rest
    | '>' :: '&' :: rest => .redirect descriptor .duplicate :: symbols fuel rest
    | '>' :: '|' :: rest => .redirect descriptor .write :: symbols fuel rest
    | '>' :: rest => .redirect descriptor .write :: symbols fuel rest
    | '<' :: '&' :: rest => .redirect descriptor .duplicate :: symbols fuel rest
    | '<' :: rest => .redirect descriptor .read :: symbols fuel rest
    | _ => []

/-- A command read from symbols that hold nothing else. -/
def commandOf : List Symbol → Command
  | [] => ⟨[], []⟩
  | .redirect descriptor direction :: .word target :: rest =>
    let command := commandOf rest
    { command with redirections := ⟨descriptor, direction, target⟩ :: command.redirections }
  | .word word :: rest =>
    let command := commandOf rest
    { command with words := word :: command.words }
  | _ :: rest => commandOf rest

def commandsOf (symbols : List Symbol) : List Command :=
  (symbols.splitOn .pipe).map commandOf

/-- The pipelines of the symbols, the first under the given condition. `before` holds the symbols
of the pipeline read so far. -/
def pipelines (condition : Condition) (before : List Symbol) : List Symbol → Script
  | [] => [⟨condition, commandsOf before⟩]
  | .ended :: rest => ⟨condition, commandsOf before⟩ :: pipelines .always [] rest
  | .andThen :: rest => ⟨condition, commandsOf before⟩ :: pipelines .afterSuccess [] rest
  | .orElse :: rest => ⟨condition, commandsOf before⟩ :: pipelines .afterFailure [] rest
  | symbol :: rest => pipelines condition (before ++ [symbol]) rest

def Script.ofText (text : String) : Script :=
  let chars := text.toList
  pipelines .always [] (symbols (chars.length + 1) chars)

end ThriftIdl.Shell

import ThriftIdl.Generator
import ThriftIdl.Main.Shell.Script

/-!
The stand-in for the shell: the state of a running script, and what words become in it. Parameters
are replaced, and what replaces an unquoted one is split into fields.
-/

namespace ThriftIdl.Shell

/-- The state of a running script: what it sees, what it has not read yet, and what it wrote.
Once it has ended nothing more is run. -/
structure State where
  files : Files
  name : String
  args : List String
  bindings : Table String
  input : ByteArray
  output : ByteArray
  errors : ByteArray
  status : Nat
  ended? : Option ExitStatus

/-- The process number by which a script knows itself. -/
def ownNumber : String := "1"

namespace State

def value (state : State) (name : String) : String :=
  if name = "#" then toString state.args.length
  else if name = "?" then toString state.status
  else if name = "$" then ownNumber
  else if name = "0" then state.name
  else
    match name.toNat? with
    | some number => state.args.getD (number - 1) ""
    | none => (state.bindings.get? name).getD ""

end State

/-- Fields under construction: those finished, and the one that is open. -/
structure Fields where
  finished : List String
  opened? : Option (List Char)

namespace Fields

def add (fields : Fields) (text : List Char) : Fields :=
  { fields with opened? := some (fields.opened?.getD [] ++ text) }

def close (fields : Fields) : Fields :=
  match fields.opened? with
  | some text => ⟨fields.finished ++ [String.ofList text], none⟩
  | none => fields

/-- The fields with texts of their own: the first goes on with the open field, and the last stays
open. -/
def addAll (fields : Fields) : List (List Char) → Fields
  | [] => fields
  | [text] => fields.add text
  | text :: rest => addAll (fields.add text).close rest

/-- The fields with a text that is split at its blanks. -/
def addSplit (fields : Fields) (text : List Char) : Fields :=
  let isSpace := fun c : Char => c == ' ' || c == '\t' || c == '\n'
  let before := if (text.head?.map isSpace).getD false then fields.close else fields
  let after := before.addAll (Text.fields text)
  if (text.getLast?.map isSpace).getD false then after.close else after

end Fields

def expandPiece (state : State) (fields : Fields) : Piece → Fields
  | .text chars _ => fields.add chars
  | .parameter "@" true => fields.addAll (state.args.map String.toList)
  | .parameter "*" true => fields.add (" ".intercalate state.args).toList
  | .parameter "@" false => state.args.foldl (fun fields arg => fields.close.addSplit arg.toList) fields
  | .parameter "*" false => state.args.foldl (fun fields arg => fields.close.addSplit arg.toList) fields
  | .parameter name true => fields.add (state.value name).toList
  | .parameter name false => fields.addSplit (state.value name).toList

/-- The fields that a word becomes. -/
def expand (state : State) (word : Word) : List String :=
  (word.foldl (expandPiece state) ⟨[], none⟩).close.finished

/-- The variable that a word sets and the word for its value. -/
def assignment? (word : Word) : Option (String × Word) :=
  let isName := fun piece : Piece =>
    match piece with
    | .text [c] false => c.isAlphanum || c == '_'
    | _ => false
  let name := word.takeWhile isName
  match word.dropWhile isName with
  | .text ['='] false :: value =>
    let chars := name.flatMap fun piece =>
      match piece with
      | .text chars _ => chars
      | _ => []
    if (chars.head?.map (!·.isDigit)).getD false then some (String.ofList chars, value) else none
  | _ => none

end ThriftIdl.Shell

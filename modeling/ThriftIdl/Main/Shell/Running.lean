import ThriftIdl.Main.Shell.Builtin

/-!
The stand-in for the shell: the redirections of a command, the commands of a pipeline, and the
pipelines of a script. A script is a program.
-/

namespace ThriftIdl.Shell

/-- Where what a command writes goes. -/
inductive Channel where
  | output
  | errors
  | file (place : List String)
deriving DecidableEq

/-- What a command reads, unless it is the script's own input, and where what it writes goes. -/
structure Wiring where
  input? : Option ByteArray
  output : Channel
  errors : Channel

def Wiring.lead (wiring : Wiring) (descriptor : Nat) (channel : Channel) : Wiring :=
  if descriptor = 2 then { wiring with errors := channel } else { wiring with output := channel }

/-- The files and the wiring after a redirection, if its target can be opened. -/
def redirect? (state : State) (files : Files) (wiring : Wiring) (redirection : Redirection) :
    Option (Files × Wiring) :=
  let path := String.join (expand state redirection.target)
  match redirection.direction with
  | .read => (files.content? path).map fun content => (files, { wiring with input? := some content })
  | .write =>
    (files.target? path).map fun place =>
      (files.writeAt place ByteArray.empty, wiring.lead redirection.descriptor (.file place))
  | .append =>
    (files.target? path).map fun place =>
      let files := if (files.node? path).isSome then files else files.writeAt place ByteArray.empty
      (files, wiring.lead redirection.descriptor (.file place))
  | .duplicate =>
    if path = "1" then some (files, wiring.lead redirection.descriptor wiring.output)
    else if path = "2" then some (files, wiring.lead redirection.descriptor wiring.errors)
    else some (files, wiring)

/-- The files and the wiring after redirections in order. -/
def redirectAll? (state : State) (reached : Files × Wiring) :
    List Redirection → Option (Files × Wiring)
  | [] => some reached
  | redirection :: rest =>
    (redirect? state reached.1 reached.2 redirection).bind fun reached =>
      redirectAll? state reached rest

def State.send (state : State) (channel : Channel) (bytes : ByteArray) : State :=
  match channel with
  | .output => { state with output := state.output ++ bytes }
  | .errors => { state with errors := state.errors ++ bytes }
  | .file place =>
    let before := match state.files.root.at? place with
      | some (.file content) => content
      | _ => ByteArray.empty
    { state with files := state.files.writeAt place (before ++ bytes) }

/-- Make the bindings of leading assignments; the words after them. -/
def assign (state : State) : List Word → State × List Word
  | [] => (state, [])
  | word :: rest =>
    match assignment? word with
    | some (name, value) =>
      let text := " ".intercalate (expand state value)
      assign { state with bindings := state.bindings.insert name text, status := 0 } rest
    | none => (state, word :: rest)

/-- Run a command. `piped?` is what the command before it in a pipeline wrote. -/
def runCommand (state : State) (piped? : Option ByteArray) (command : Command) : State :=
  let (state, words) := assign state command.words
  match redirectAll? state (state.files, ⟨piped?, .output, .errors⟩) command.redirections with
  | none => state.complain 2 "cannot open a file"
  | some (files, wiring) =>
    let words := words.flatMap (expand state)
    let inside : State :=
      { state with
        files := files, input := wiring.input?.getD state.input,
        output := ByteArray.empty, errors := ByteArray.empty }
    let after :=
      match words with
      | [] => inside
      | "exec" :: name :: args =>
        let after := builtin inside name args
        { after with ended? := after.ended?.or (some (.code after.status)) }
      | name :: args => builtin inside name args
    let own := if wiring.input?.isSome then state.input else after.input
    let outer : State :=
      { after with input := own, output := state.output, errors := state.errors }
    (outer.send wiring.output after.output).send wiring.errors after.errors

/-- The state after a command that ran beside the script: only files, input and status are
shared, and a signal to the script ends it too. -/
def rejoin (state beside : State) : State :=
  let ended? := match beside.ended? with
    | some (.signal number) => some (.signal number)
    | _ => state.ended?
  let status := match beside.ended? with
    | some (.code number) => number
    | _ => beside.status
  { state with
    files := { beside.files with here := state.files.here },
    input := beside.input, errors := beside.errors, status := status, ended? := ended? }

/-- Run the commands of a pipeline, the first on `piped?`. -/
def runCommands (state : State) (piped? : Option ByteArray) : List Command → State
  | [] => state
  | [command] =>
    match piped? with
    | none => runCommand state none command
    | some _ =>
      let beside := runCommand state piped? command
      { rejoin state beside with output := beside.output }
  | command :: rest =>
    let beside := runCommand { state with output := ByteArray.empty } piped? command
    runCommands (rejoin state beside) (some beside.output) rest

/-- A pipeline runs after one that ended with the status. -/
def Condition.holds (condition : Condition) (status : Nat) : Bool :=
  match condition with
  | .always => true
  | .afterSuccess => status == 0
  | .afterFailure => status != 0

/-- Run the pipelines of a script until it ends. -/
def runScript (state : State) : Script → State
  | [] => state
  | pipeline :: rest =>
    if state.ended?.isSome then state
    else if pipeline.condition.holds state.status then
      runScript (runCommands state none pipeline.commands) rest
    else runScript state rest

def Script.program (name : String) (script : Script) : Program := fun args files input =>
  let start : State :=
    ⟨files, name, args, [], input, ByteArray.empty, ByteArray.empty, 0, none⟩
  let state := runScript start script
  { taken := input.size - state.input.size
    status := state.ended?.getD (.code state.status)
    output := state.output
    files := state.files }

end ThriftIdl.Shell

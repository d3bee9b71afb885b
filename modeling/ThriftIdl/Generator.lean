import ThriftIdl.Files
import ThriftIdl.Text.Blank
import ThriftIdl.Text.Integer

/-!
Generators: programs that read a model's text. The text goes through a pipe while the generator
runs; the hand-off succeeds only if the generator does and all of the text went through.
-/

namespace ThriftIdl

/-- How a process ended. -/
inductive ExitStatus where
  | code (number : Nat)
  | signal (number : Nat)
deriving DecidableEq

namespace ExitStatus

def isSuccess : ExitStatus → Bool
  | code 0 => true
  | _ => false

/-- The names of the signals from 1 on. -/
def signalNames : List String := [
  "HUP", "INT", "QUIT", "ILL", "TRAP", "ABRT", "BUS", "FPE", "KILL", "USR1", "SEGV", "USR2",
  "PIPE", "ALRM", "TERM", "STKFLT", "CHLD", "CONT", "STOP", "TSTP", "TTIN", "TTOU", "URG",
  "XCPU", "XFSZ", "VTALRM", "PROF", "WINCH", "IO", "PWR", "SYS"]

def signalName? (number : Nat) : Option String :=
  if number = 0 then none else signalNames[number - 1]?

def text : ExitStatus → String
  | code number => s!"exit status: {Text.ofInt number}"
  | signal number =>
    match signalName? number with
    | some name => s!"signal: {Text.ofInt number} (SIG{name})"
    | none => s!"signal: {Text.ofInt number}"

end ExitStatus

/-- What a program did: how many bytes of its input it took, how it ended, what it wrote to its
output, and the files it left. -/
structure Run where
  taken : Nat
  status : ExitStatus
  output : ByteArray
  files : Files

/-- A program, given its arguments, the files it sees and its input. -/
abbrev Program := List String → Files → ByteArray → Run

/-- A generator by name, and the arguments to give it. -/
structure Generator where
  name : String
  args : List String
deriving DecidableEq

namespace Generator

/-- The generator that a text asks for: its name, then its arguments. -/
def ofText? (text : String) : Option Generator :=
  match Text.fieldsOf text with
  | [] => none
  | name :: args => some ⟨name, args⟩

def program (generator : Generator) : String := "threft-gen-" ++ generator.name

end Generator

/-- Why a text was not handed to a generator. -/
inductive HandOffError where
  | spawn (program : String)
  | noInput
  | write
  | failed (status : ExitStatus)
deriving DecidableEq

def HandOffError.text : HandOffError → String
  | spawn program => s!"failed to start generator `{program}`"
  | noInput => "generator process has no piped stdin"
  | write => "failed to write the model to the generator"
  | failed status => s!"generator exited unsuccessfully ({status.text})"

namespace HandOff

def pageSize : Nat := 4096

def pipePages : Nat := 16

/-- The pipe took the whole text. It fills its pages one after the other, and a page is free again
when all of it was read. -/
def delivered (size taken : Nat) : Bool := size ≤ (taken / pageSize + pipePages) * pageSize

/-- How a process ended that a text was written to. That the text was cut short counts only if
the process reports success, since a failing process explains itself. -/
def outcome (delivered : Bool) (status : ExitStatus) : Except HandOffError ExitStatus :=
  if delivered || !status.isSuccess then .ok status else .error .write

/-- The same, where the process must succeed. -/
def verdict (delivered : Bool) (status : ExitStatus) : Except HandOffError Unit := do
  let status ← outcome delivered status
  if status.isSuccess then .ok () else .error (.failed status)

/-- Run a program on a text. Without a pipe the program has nothing to read. -/
def send (program : Program) (args : List String) (files : Files) (piped : Bool)
    (payload : ByteArray) : Except HandOffError ExitStatus × Run :=
  if piped then
    let run := program args files payload
    (outcome (delivered payload.size run.taken) run.status, run)
  else (.error .noInput, program args files ByteArray.empty)

end HandOff

/-- The programs on the search path, by name. -/
abbrev Programs := List (String × Program)

namespace Generator

/-- A text can be passed to a program. -/
def passable (text : String) : Bool := !text.toList.contains (Char.ofNat 0)

/-- Run the generator in a folder on a text. It cannot start if its program is unknown, the
folder is missing, or its arguments cannot be passed. -/
def run (generator : Generator) (programs : Programs) (files : Files) (folder : String)
    (payload : ByteArray) : Except HandOffError Unit × Option Run :=
  let spawnFailed := (.error (.spawn generator.program), none)
  if !(generator.name :: generator.args).all passable then spawnFailed
  else
    match programs.lookup generator.program, files.enter? folder with
    | some program, some inside =>
      let run := program generator.args inside payload
      let delivered := HandOff.delivered payload.size run.taken
      (HandOff.verdict delivered run.status, some run)
    | _, _ => spawnFailed

end Generator

end ThriftIdl

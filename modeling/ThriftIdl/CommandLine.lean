import ThriftIdl.Builder
import ThriftIdl.Generator
import ThriftIdl.Model.Encoding

/-!
The command line: what arguments ask for, and what the command then does to the files it sees.
Arguments are taken from left to right. Without a generator the model's text is the output.
-/

namespace ThriftIdl.CommandLine

/-- What the command explains about itself. -/
def usage : String :=
  "Usage: threft -i <file|dir>... [-g \"<generator> [args]\"] [-o <dir>] [--dump-model <file>]

Options:
  -i, --input <path>       .thrift file or directory to read (repeatable)
  -g, --gen <spec>         run threft-gen-<generator> with the model on stdin
  -o, --output <dir>       working directory for the generator (default: .)
      --dump-model <file>  also write the encoded model to <file>
  -h, --help               print this help

Without -g the encoded model is written to stdout.
Set RUST_LOG (e.g. RUST_LOG=threft=debug) for progress logging."

/-- What to build a model from and what to do with it. -/
structure Job where
  inputs : List String := []
  generator? : Option Generator := none
  folder : String := "."
  dump? : Option String := none

/-- What arguments ask for. -/
inductive Request where
  | help
  | job (job : Job)

/-- What is wrong with arguments. -/
inductive UsageError where
  | unknownOption (option : String)
  | missingValue (option : String)
  | blankGenerator
  | noInput
deriving DecidableEq

def UsageError.text : UsageError → String
  | unknownOption option => s!"invalid option '{option}'"
  | missingValue option => s!"missing argument for option '{option}'"
  | blankGenerator => "generator spec must not be blank"
  | noInput => "at least one input is required"

/-- The options that take a value. -/
inductive Setting where
  | input
  | generator
  | folder
  | dump
deriving DecidableEq

/-- An argument: an option with the value attached to it, the sign that no options follow, or an
input. -/
inductive Argument where
  | help
  | setting (setting : Setting) (name : String) (attached? : Option String)
  | unknown (name : String)
  | endOfOptions
  | input (path : String)

/-- The argument for a long option, given the text after its dashes. -/
def longArgument (text : List Char) : Argument :=
  let name := String.ofList (text.takeWhile (· != '='))
  let attached? := match text.dropWhile (· != '=') with
    | _ :: value => some (String.ofList value)
    | [] => none
  if name = "help" then .help
  else if name = "input" then .setting .input "--input" attached?
  else if name = "gen" then .setting .generator "--gen" attached?
  else if name = "output" then .setting .folder "--output" attached?
  else if name = "dump-model" then .setting .dump "--dump-model" attached?
  else .unknown ("--" ++ name)

/-- The value attached to a short option: what follows its letter, without a first `=`. -/
def attachedTo : List Char → Option String
  | [] => none
  | '=' :: value => some (String.ofList value)
  | value => some (String.ofList value)

def Argument.ofText (text : String) : Argument :=
  match text.toList with
  | ['-', '-'] => .endOfOptions
  | '-' :: '-' :: rest => longArgument rest
  | '-' :: 'h' :: _ => .help
  | '-' :: 'i' :: rest => .setting .input "-i" (attachedTo rest)
  | '-' :: 'g' :: rest => .setting .generator "-g" (attachedTo rest)
  | '-' :: 'o' :: rest => .setting .folder "-o" (attachedTo rest)
  | '-' :: c :: _ => .unknown (String.ofList ['-', c])
  | _ => .input text

namespace Job

def addInput (job : Job) (path : String) : Job := { job with inputs := job.inputs ++ [path] }

/-- The job with an option set. The last value counts, except that inputs add up. -/
def set (job : Job) (setting : Setting) (value : String) : Except UsageError Job :=
  match setting with
  | .input => .ok (job.addInput value)
  | .generator =>
    match Generator.ofText? value with
    | some generator => .ok { job with generator? := some generator }
    | none => .error .blankGenerator
  | .folder => .ok { job with folder := value }
  | .dump => .ok { job with dump? := some value }

/-- A job must have an input. -/
def checked (job : Job) : Except UsageError Request :=
  if job.inputs.isEmpty then .error .noInput else .ok (.job job)

end Job

/-- What the arguments ask for, on top of a job. Asking for help ends the arguments. -/
def parseFrom (job : Job) : List String → Except UsageError Request
  | [] => job.checked
  | argument :: rest =>
    match Argument.ofText argument, rest with
    | .help, _ => .ok .help
    | .unknown name, _ => .error (.unknownOption name)
    | .endOfOptions, rest => (rest.foldl Job.addInput job).checked
    | .input path, rest => parseFrom (job.addInput path) rest
    | .setting setting _ (some value), rest => do
      let job ← job.set setting value
      parseFrom job rest
    | .setting setting _ none, value :: rest => do
      let job ← job.set setting value
      parseFrom job rest
    | .setting _ name none, [] => .error (.missingValue name)

def parse (arguments : List String) : Except UsageError Request := parseFrom {} arguments

/-- What the command did: its exit code, its output, what it said beside the output if that did not
stop it, and the files it left. -/
structure Outcome where
  exit : Nat
  output : ByteArray
  messages : Except Overflow (List String)
  files : Files

/-- Why a job failed. -/
inductive Failure where
  | build (error : BuildError)
  | dump (path : String)
  | folder (path : String)
  | generator (name : String) (error : HandOffError)

/-- The reason in words, outermost first. -/
def Failure.texts : Failure → Except Overflow (List String)
  | build (.discovery error) => .ok (error.text :: error.help?.toList)
  | build (.source (.fault fault)) => do return (← fault.text) :: fault.help?.toList
  | build (.source error) => error.texts
  | dump path => .ok [s!"write model dump {path}"]
  | folder path => .ok [s!"create {path}"]
  | generator name error => .ok [s!"generator `{name}`", error.text]

/-- What has been done of a job so far. -/
structure Progress where
  output : ByteArray
  files : Files

/-- Write the model's text to the file that the job names, if it names one. -/
def dump (job : Job) (text : String) (files : Files) : Except Failure Files :=
  match job.dump? with
  | none => .ok files
  | some path =>
    match files.write? path text.toUTF8 with
    | some files => .ok files
    | none => .error (.dump path)

/-- Hand the model's text to the job's generator, in the job's folder, which is made if it is
missing. What the generator writes to its output is output of the command. -/
def generate (programs : Programs) (job : Job) (generator : Generator) (text : String)
    (files : Files) : Option Failure × Progress :=
  let files := files.makeFolders job.folder
  if files.hasFolder job.folder then
    let (result, run?) := generator.run programs files job.folder text.toUTF8
    let progress : Progress :=
      match run? with
      | some run => ⟨run.output, { files with root := run.files.root }⟩
      | none => ⟨ByteArray.empty, files⟩
    match result with
    | .ok () => (none, progress)
    | .error error => (some (.generator generator.name error), progress)
  else (some (.folder job.folder), ⟨ByteArray.empty, files⟩)

/-- What to do with a model once it is built. -/
def deliver (programs : Programs) (job : Job) (model : Model) (files : Files) :
    Option Failure × Progress :=
  match dump job model.encode files with
  | .error failure => (some failure, ⟨ByteArray.empty, files⟩)
  | .ok files =>
    match job.generator? with
    | none => (none, ⟨model.written.toUTF8, files⟩)
    | some generator => generate programs job generator model.encode files

def runJob (programs : Programs) (files : Files) (job : Job) : Outcome :=
  let (result, builder) := Builder.buildFiles {} files job.inputs
  let warnings := builder.warnings.mapM Warning.text
  let messages (failure : Failure) := do return (← warnings) ++ (← failure.texts)
  match result with
  | .error error => ⟨1, ByteArray.empty, messages (.build error), files⟩
  | .ok model =>
    match deliver programs job model files with
    | (none, progress) => ⟨0, progress.output, warnings, progress.files⟩
    | (some failure, progress) => ⟨1, progress.output, messages failure, progress.files⟩

def run (programs : Programs) (files : Files) (arguments : List String) : Outcome :=
  match parse arguments with
  | .error error => ⟨2, ByteArray.empty, .ok [error.text, usage], files⟩
  | .ok .help => ⟨0, (usage ++ "\n").toUTF8, .ok [], files⟩
  | .ok (.job job) => runJob programs files job

end ThriftIdl.CommandLine

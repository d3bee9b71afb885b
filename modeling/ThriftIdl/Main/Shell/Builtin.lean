import ThriftIdl.Main.Shell.Expansion

/-!
The stand-in for the shell: the commands that scripts may use.
-/

namespace ThriftIdl.Shell

namespace State

def done (state : State) (status : Nat) : State := { state with status := status }

/-- The state with bytes written to the output. -/
def write (state : State) (bytes : ByteArray) : State :=
  { state with output := state.output ++ bytes }

def say (state : State) (text : String) : State := state.write text.toUTF8

def complain (state : State) (status : Nat) (text : String) : State :=
  { state with errors := state.errors ++ (text ++ "\n").toUTF8, status := status }

/-- The state with the first bytes of the input read. -/
def skip (state : State) (count : Nat) : State :=
  { state with input := state.input.extract count state.input.size }

end State

def count? (text : String) : Option Nat := text.toNat?

def signal? (text : String) : Option Nat :=
  match text.toNat? with
  | some number => some number
  | none => (ExitStatus.signalNames.findIdx? (· == text)).map (· + 1)

/-- A process does not end by these signals unless it asks to. -/
def isHarmless (signal : Nat) : Bool :=
  signal = 0 || signal = 17 || signal = 18 || signal = 19 || signal = 20 || signal = 21 ||
    signal = 22 || signal = 23 || signal = 28

/-- Send a signal to the script itself. Other processes are not there. -/
def kill (state : State) (signal : Option Nat) (target : String) : State :=
  match signal with
  | none => state.complain 2 "kill: no such signal"
  | some number =>
    if target ≠ ownNumber then state.complain 1 "kill: no such process"
    else if isHarmless number then state.done 0
    else { state with ended? := some (.signal number) }

/-- The octal number of at most the given digits at the start of a text, and what follows it. -/
def octal (digits value : Nat) : List Char → Nat × List Char
  | [] => (value, [])
  | c :: rest =>
    match digits with
    | 0 => (value, c :: rest)
    | digits + 1 =>
      if '0' ≤ c ∧ c ≤ '7' then octal digits (value * 8 + (c.toNat - '0'.toNat)) rest
      else (value, c :: rest)

def charBytes (c : Char) : List UInt8 := c.toString.toUTF8.toList

/-- The byte that a letter after a backslash stands for. -/
def escapeByte? : Char → Option UInt8
  | 'a' => some 7
  | 'b' => some 8
  | 'f' => some 12
  | 'n' => some 10
  | 'r' => some 13
  | 't' => some 9
  | 'v' => some 11
  | '\\' => some 92
  | _ => none

/-- The bytes of a text with its escapes replaced, and whether `\c` ended it. -/
def unescape (fuel : Nat) (text : List Char) : List UInt8 × Bool :=
  match fuel with
  | 0 => ([], false)
  | fuel + 1 =>
    match text with
    | [] => ([], false)
    | '\\' :: 'c' :: _ => ([], true)
    | '\\' :: '0' :: rest =>
      let (value, rest) := octal 3 0 rest
      let (bytes, stopped) := unescape fuel rest
      (UInt8.ofNat value :: bytes, stopped)
    | '\\' :: c :: rest =>
      let (bytes, stopped) := unescape fuel rest
      match escapeByte? c with
      | some byte => (byte :: bytes, stopped)
      | none => (charBytes '\\' ++ charBytes c ++ bytes, stopped)
    | c :: rest =>
      let (bytes, stopped) := unescape fuel rest
      (charBytes c ++ bytes, stopped)

/-- The bytes that a format gives for arguments, the arguments left over, and whether it used
any. -/
def format (fuel : Nat) (text : List Char) (args : List String) :
    List UInt8 × List String × Bool :=
  match fuel with
  | 0 => ([], args, false)
  | fuel + 1 =>
    match text with
    | [] => ([], args, false)
    | '%' :: '%' :: rest =>
      let (bytes, args, used) := format fuel rest args
      (charBytes '%' ++ bytes, args, used)
    | '%' :: c :: rest =>
      let arg := args.headD ""
      let piece :=
        if c = 's' then arg.toUTF8.toList
        else if c = 'b' then (unescape (arg.length + 1) arg.toList).1
        else if c = 'c' then (arg.toList.take 1).flatMap charBytes
        else if c = 'd' ∨ c = 'i' ∨ c = 'u' then (toString (arg.toInt?.getD 0)).toUTF8.toList
        else charBytes '%' ++ charBytes c
      let (bytes, args, _) := format fuel rest (args.drop 1)
      (piece ++ bytes, args, true)
    | '\\' :: c :: rest =>
      if '0' ≤ c ∧ c ≤ '7' then
        let (value, rest) := octal 3 0 (c :: rest)
        let (bytes, args, used) := format fuel rest args
        (UInt8.ofNat value :: bytes, args, used)
      else
        let (bytes, args, used) := format fuel rest args
        match escapeByte? c with
        | some byte => (byte :: bytes, args, used)
        | none =>
          if c = '"' then (charBytes c ++ bytes, args, used)
          else (charBytes '\\' ++ charBytes c ++ bytes, args, used)
    | c :: rest =>
      let (bytes, args, used) := format fuel rest args
      (charBytes c ++ bytes, args, used)

/-- The bytes of a format that is used until all arguments are. -/
def formatAll (fuel : Nat) (text : String) (args : List String) : List UInt8 :=
  match fuel with
  | 0 => []
  | fuel + 1 =>
    let (bytes, rest, used) := format (text.length + 1) text.toList args
    if used && !rest.isEmpty then bytes ++ formatAll fuel text rest else bytes

/-- The bytes of some files one after the other, or of the input where none is named. -/
def contents (state : State) : List String → ByteArray × State
  | [] => (ByteArray.empty, state.done 0)
  | "-" :: rest =>
    let (bytes, after) := contents { state with input := ByteArray.empty } rest
    (state.input ++ bytes, after)
  | path :: rest =>
    let (bytes, after) := contents state rest
    match state.files.content? path with
    | some content => (content ++ bytes, after)
    | none => (bytes, after.complain 1 s!"cannot read {path}")

/-- How many bytes the given number of lines take. -/
def linesLength (count : Nat) : List UInt8 → Nat
  | [] => 0
  | byte :: rest =>
    match count with
    | 0 => 0
    | count + 1 => 1 + linesLength (if byte = 10 then count else count + 1) rest

/-- The first bytes or lines of the input. Lines are read in blocks. -/
def head (state : State) (inBytes : Bool) (count : Nat) : State :=
  if inBytes then
    ((state.write (state.input.extract 0 count)).skip count).done 0
  else
    let length := linesLength count state.input.toList
    let block := 8192
    let read := if count = 0 then 0 else (length + block - 1) / block * block
    ((state.write (state.input.extract 0 length)).skip read).done 0

def counts (bytes : ByteArray) : Nat × Nat × Nat :=
  let isSpace := fun b : UInt8 => b = 32 || (9 ≤ b && b ≤ 13)
  let step := fun (acc : Nat × Nat × Bool) (b : UInt8) =>
    let (lines, words, inside) := acc
    (if b = 10 then lines + 1 else lines,
      if !isSpace b && !inside then words + 1 else words, !isSpace b)
  let (lines, words, _) := bytes.toList.foldl step (0, 0, false)
  (lines, words, bytes.size)

def column (width : Nat) (number : Nat) : String :=
  let text := toString number
  String.ofList (List.replicate (width - text.length) ' ') ++ text

def wordCount (state : State) (options : String) : State :=
  let (lines, words, bytes) := counts state.input
  let asked := if options = "" then "lwc" else options
  let shown := ([('l', lines), ('w', words), ('c', bytes)].filter
    (asked.toList.contains ·.1)).map (·.2)
  let width := if shown.length = 1 then 1 else 7
  let state := { state with input := ByteArray.empty }
  (state.say (" ".intercalate (shown.map (column width)) ++ "\n")).done 0

def condition (state : State) : List String → Bool
  | ["!", a] => a = ""
  | [a] => a ≠ ""
  | ["-n", a] => a ≠ ""
  | ["-z", a] => a = ""
  | ["-e", path] => (state.files.node? path).isSome
  | ["-f", path] =>
    match state.files.node? path with
    | some (.file _) => true
    | _ => false
  | ["-d", path] => ((state.files.node? path).map Tree.isFolder).getD false
  | ["-s", path] =>
    match state.files.node? path with
    | some (.file content) => content.size > 0
    | _ => false
  | [a, "=", b] => a = b
  | [a, "!=", b] => a ≠ b
  | [a, "-eq", b] => a.toInt? == b.toInt?
  | [a, "-ne", b] => a.toInt? != b.toInt?
  | [a, "-gt", b] => (b.toInt?.getD 0) < (a.toInt?.getD 0)
  | [a, "-ge", b] => (b.toInt?.getD 0) ≤ (a.toInt?.getD 0)
  | [a, "-lt", b] => (a.toInt?.getD 0) < (b.toInt?.getD 0)
  | [a, "-le", b] => (a.toInt?.getD 0) ≤ (b.toInt?.getD 0)
  | _ => false

/-- Apply a change of the files to each path in turn; the status tells whether one failed. -/
def forEach (change : Files → String → Option Files) (state : State) : List String → State
  | [] => state
  | path :: rest =>
    match change state.files path with
    | some files => forEach change { state with files := files } rest
    | none => forEach change (state.complain 1 s!"cannot change {path}") rest

def makeFolder (files : Files) (path : String) : Option Files :=
  let path := String.ofList (Text.dropEndWhile (· == '/') path.toList)
  match files.target? path, files.node? path with
  | some place, none => some { files with root := files.root.put place (.folder []) }
  | _, _ => none

def makeParents (files : Files) (path : String) : Option Files :=
  let made := files.makeAlong (files.origin path) (Path.steps path)
  if (made.enter? path).isSome then some made else none

/-- Make a file that is empty if there is none. -/
def touch (files : Files) (path : String) : Option Files :=
  match files.node? path with
  | some _ => some files
  | none => files.write? path ByteArray.empty

/-- The bytes up to the first line feed, and how many were read. -/
def firstLine (bytes : ByteArray) : String × Nat :=
  let line := bytes.toList.takeWhile (· != 10)
  ((String.fromUTF8? line.toByteArray).getD "", min bytes.size (line.length + 1))

def builtin (state : State) (name : String) (args : List String) : State :=
  match name, args with
  | ":", _ | "true", _ | "sleep", _ | "set", _ | "export", _ | "exec", _ => state.done 0
  | "false", _ => state.done 1
  | "exit", [] => { state with ended? := some (.code state.status) }
  | "exit", number :: _ =>
    { state with ended? := some (.code ((number.toNat?.getD 2) % 256)) }
  | "echo", "-n" :: words =>
    let text := " ".intercalate words
    (state.write (unescape (text.length + 1) text.toList).1.toByteArray).done 0
  | "echo", words =>
    let text := " ".intercalate words
    let (bytes, stopped) := unescape (text.length + 1) text.toList
    (state.write (if stopped then bytes else bytes ++ [10]).toByteArray).done 0
  | "printf", text :: words =>
    (state.write (formatAll (words.length + 1) text words).toByteArray).done 0
  | "cat", [] =>
    let (bytes, after) := contents state ["-"]
    after.write bytes
  | "cat", paths =>
    let (bytes, after) := contents state paths
    after.write bytes
  | "tee", paths =>
    let bytes := state.input
    let state := { state with input := ByteArray.empty }
    forEach (fun files path => files.write? path bytes) ((state.write bytes).done 0) paths
  | "head", ["-c", number] => head state true ((count? number).getD 0)
  | "head", ["-n", number] => head state false ((count? number).getD 0)
  | "head", [option] =>
    match option.toList with
    | '-' :: 'c' :: number => head state true ((count? (String.ofList number)).getD 0)
    | '-' :: 'n' :: number => head state false ((count? (String.ofList number)).getD 0)
    | '-' :: number => head state false ((count? (String.ofList number)).getD 0)
    | _ => state.complain 1 "head: no such file"
  | "head", [] => head state false 10
  | "wc", options => wordCount state (String.ofList ((options.flatMap String.toList).filter (· != '-')))
  | "kill", ["-s", signal, target] => kill state (signal? signal) target
  | "kill", [signal, target] =>
    kill state (signal? (String.ofList (signal.toList.drop 1))) target
  | "kill", [target] => kill state (some 15) target
  | "cd", [path] =>
    match state.files.enter? path with
    | some files => { state with files := files, status := 0 }
    | none => state.complain 2 s!"cd: can't cd to {path}"
  | "pwd", _ => (state.say ("/" ++ "/".intercalate state.files.here ++ "\n")).done 0
  | "mkdir", "-p" :: paths => forEach makeParents (state.done 0) paths
  | "mkdir", paths => forEach makeFolder (state.done 0) paths
  | "touch", paths => forEach touch (state.done 0) paths
  | "shift", [] => { state with args := state.args.drop 1, status := 0 }
  | "read", names =>
    let (line, length) := firstLine state.input
    let status := if state.input.isEmpty then 1 else 0
    let bindings := (names.head?.map fun name => state.bindings.insert name line).getD
      state.bindings
    { state.skip length with bindings := bindings, status := status }
  | "test", words => state.done (if condition state words then 0 else 1)
  | "[", words => state.done (if condition state words.dropLast then 0 else 1)
  | _, _ => state.complain 127 s!"{name}: not found"

end ThriftIdl.Shell

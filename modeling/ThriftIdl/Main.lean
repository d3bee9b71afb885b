import ThriftIdl.CommandLine
import ThriftIdl.Main.Shell.Running

/-!
The outermost layer, which runs the command: the files that a request may look at are loaded from
the disk, the request is done on them, and what it changed is stored. A generator is a script on the
search path, and what the shell would do with it is done by a stand-in.
-/

namespace ThriftIdl.Disk

def placeOf (here : List String) (path : String) : List String :=
  let step := fun (place : List String) name =>
    if Path.stays name then place
    else if name = ".." then place.dropLast
    else place ++ [name]
  (Path.steps path).foldl step (if path.toList.head? = some '/' then [] else here)

def pathTo (place : List String) : String := "/" ++ "/".intercalate place

/-- What the disk holds at a place. A folder is loaded with everything below it, links apart, if
`deep` says so, and else as an empty one. -/
partial def load? (deep : Bool) (place : List String) : IO (Option Tree) := do
  let path := (← IO.currentDir) / pathTo place
  if ← path.isDir then
    let mut entries := []
    for entry in ← if deep then path.readDir else pure #[] do
      if (← entry.path.symlinkMetadata).type != .symlink then
        let node? ← load? deep (place ++ [entry.fileName])
        entries := entries ++ (node?.map fun node => (entry.fileName, node)).toList
    return some (.folder entries)
  else if ← path.pathExists then
    return some (.file (← IO.FS.readBinFile path))
  else
    return none

/-- The tree with what the disk holds at a place and on the way to it. -/
def loadInto (root : Tree) (deep : Bool) (place : List String) : IO Tree := do
  let mut tree := root
  for length in List.range (place.length + 1) do
    let reached := place.take length
    let here := deep && length == place.length
    if here || (tree.at? reached).isNone then
      if let some node ← load? here reached then
        tree := tree.put reached node
  return tree

/-- The files that a job may look at. -/
def filesFor (job : CommandLine.Job) : IO Files := do
  let here := placeOf [] (← IO.currentDir).toString
  let device := (Tree.folder []).put ["dev", "null"] .sink
  let mut root ← loadInto device false here
  for path in job.inputs ++ (job.generator?.map fun _ => job.folder).toList do
    root ← loadInto root true (placeOf here path)
  for path in job.dump?.toList do
    root ← loadInto root false (placeOf here path)
  return ⟨root, here⟩

/-- The generator's program, if a folder of the search path holds it. -/
def programsFor (generator : Generator) : IO Programs := do
  for folder in ((← IO.getEnv "PATH").getD "").splitOn ":" do
    let path := (← IO.currentDir) / folder / generator.program
    if ← path.pathExists then
      if let some text := String.fromUTF8? (← IO.FS.readBinFile path) then
        let script := Shell.Script.ofText text
        return [(generator.program, script.program generator.program)]
  return []

partial def store (place : List String) (before? : Option Tree) : Tree → IO Unit
  | .sink => return ()
  | .file content => do
    let isKept := match before? with
      | some (.file old) => old == content
      | _ => false
    unless isKept do IO.FS.writeBinFile (pathTo place) content
  | .folder entries => do
    if before?.isNone then IO.FS.createDirAll (pathTo place)
    for (name, tree) in entries do
      store (place ++ [name]) (before?.bind (·.child? name)) tree

end ThriftIdl.Disk

open ThriftIdl in
/-- Run the command on its arguments. -/
def main (arguments : List String) : IO UInt32 := do
  let (programs, files) ← match CommandLine.parse arguments with
    | .ok (.job job) => do
      let programs ← (job.generator?.map Disk.programsFor).getD (pure [])
      pure (programs, ← Disk.filesFor job)
    | _ => pure ([], ⟨.folder [], []⟩)
  let outcome := CommandLine.run programs files arguments
  Disk.store [] (some files.root) outcome.files.root
  match outcome.messages with
  | .error _ => return 101 -- the exit code of a program that stops
  | .ok messages =>
    for message in messages do
      IO.eprintln message
    (← IO.getStdout).write outcome.output
    return outcome.exit.toUInt32

import ThriftIdl.Files

/-!
Sources: the files that become documents. An input is a file with the extension of documents, or
a folder that is searched for such files.
-/

namespace ThriftIdl

def sourceExtension : String := "thrift"

/-- A source: the name its document gets, the path to it, and its content. -/
structure Source where
  name : String
  path : String
  content : ByteArray

/-- Why inputs give no sources. -/
inductive DiscoveryError where
  | wrongExtension (path : String)
  | notFound (path : String)
  | noSources
deriving DecidableEq

namespace DiscoveryError

def text : DiscoveryError → String
  | wrongExtension path => s!"invalid file extension for `{path}`, expected .{sourceExtension}"
  | notFound path => s!"input `{path}` is neither a file nor a directory"
  | noSources => s!"no .{sourceExtension} documents found"

def help? : DiscoveryError → Option String
  | noSources => some "pass `.thrift` files or directories containing them with `-i`"
  | _ => none

end DiscoveryError

namespace Source

def isSource (name : String) : Bool := Path.extension? name == some sourceExtension

/-- The source for a file found below a folder: named by its path from there. -/
def ofFound (folder : String) (found : Tree.Found) : Source where
  name := "/".intercalate found.names
  path := Path.join folder ("/".intercalate found.names)
  content := found.content

/-- The sources below a folder, in the order of a walk. -/
def below (path : String) (folder : Tree) : List Source :=
  (folder.walk.filter fun found => (found.names.getLast?.map isSource).getD false).map
    (ofFound path)

def ofInput (files : Files) (path : String) : Except DiscoveryError (List Source) :=
  match files.node? path with
  | some (.folder entries) => .ok (below path (.folder entries))
  | some (.file content) =>
    let name := Path.fileName path
    if isSource name then .ok [⟨name, path, content⟩] else .error (.wrongExtension path)
  | _ => .error (.notFound path)

/-- The sources of all inputs in order. There must be one. -/
def discover (files : Files) (inputs : List String) : Except DiscoveryError (List Source) := do
  let found ← inputs.mapM (ofInput files)
  match found.flatten with
  | [] => .error .noSources
  | source :: rest => .ok (source :: rest)

end Source

end ThriftIdl

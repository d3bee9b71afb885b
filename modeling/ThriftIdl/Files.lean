import ThriftIdl.Tree

/-!
Files as a program sees them: a tree and the folder it works in. A path is relative to that
folder unless it starts with `/`. Every step of a path must be taken in a folder, also the empty
step after a `/` at the end.
-/

namespace ThriftIdl

/-- The tree of all files, and the place of the working folder. -/
structure Files where
  root : Tree
  here : List String

namespace Path

def steps (path : String) : List String := (path.toList.splitOn '/').map String.ofList

/-- A step that stays where it is. -/
def stays (name : String) : Bool := name == "" || name == "."

/-- The steps on which a missing folder is made: those that lead somewhere. A `.` at the end of a
path is a step in a folder that must exist by then, so nothing is made on the step before it. -/
def makingSteps (path : String) : List String :=
  let all := steps path
  let moving := all.filter (!stays ·)
  if (all.reverse.takeWhile stays).contains "." then moving.dropLast else moving

/-- The path of an entry of a folder. -/
def join (folder name : String) : String :=
  if folder.toList.getLast? = some '/' then folder ++ name else folder ++ "/" ++ name

/-- What follows the last dot of a file's name, if something stands before the dot. -/
def extension? (name : String) : Option String :=
  let reversed := name.toList.reverse
  match reversed.dropWhile (· != '.') with
  | '.' :: _ :: _ => some (String.ofList (reversed.takeWhile (· != '.')).reverse)
  | _ => none

def fileName (path : String) : String := (steps path).getLastD path

end Path

namespace Files

/-- The place after one step from a place, which must be a folder. -/
def step? (files : Files) (at_ : List String) (name : String) : Option (List String) :=
  match files.root.at? at_ with
  | some (.folder _) =>
    if Path.stays name then some at_
    else if name = ".." then some at_.dropLast
    else
      let place := at_ ++ [name]
      if (files.root.at? place).isSome then some place else none
  | _ => none

/-- The place where the steps of a path start. -/
def origin (files : Files) (path : String) : List String :=
  if path.toList.head? = some '/' then [] else files.here

/-- The place that a path leads to. The empty path leads nowhere. -/
def locate? (files : Files) (path : String) : Option (List String) :=
  if path = "" then none
  else (Path.steps path).foldlM files.step? (files.origin path)

/-- What stands where a path leads. -/
def node? (files : Files) (path : String) : Option Tree :=
  (files.locate? path).bind files.root.at?

def content? (files : Files) (path : String) : Option ByteArray :=
  match files.node? path with
  | some (.file content) => some content
  | some .sink => some ByteArray.empty
  | _ => none

/-- The files seen from another working folder, if the path leads to a folder. -/
def enter? (files : Files) (path : String) : Option Files :=
  (files.locate? path).bind fun place =>
    match files.root.at? place with
    | some (.folder _) => some { files with here := place }
    | _ => none

/-- The place of the file that a path names, whether or not it exists: its last step in the
folder that the others lead to. A folder is no such place. -/
def target? (files : Files) (path : String) : Option (List String) := do
  let steps := Path.steps path
  let name ← steps.getLast?
  if Path.stays name ∨ name = ".." then none
  else
    let folder ← steps.dropLast.foldlM files.step? (files.origin path)
    match files.root.at? folder, files.root.at? (folder ++ [name]) with
    | some (.folder _), some (.folder _) => none
    | some (.folder _), _ => some (folder ++ [name])
    | _, _ => none

/-- The files with the content written at a place. A device stays as it is. -/
def writeAt (files : Files) (place : List String) (content : ByteArray) : Files :=
  match files.root.at? place with
  | some .sink => files
  | _ => { files with root := files.root.put place (.file content) }

/-- The files after a file was written, if the path names one. -/
def write? (files : Files) (path : String) (content : ByteArray) : Option Files :=
  (files.target? path).map fun place => files.writeAt place content

/-- The files and the place after one step on which a missing folder is made. -/
def makeStep? (files : Files) (at_ : List String) (name : String) : Option (Files × List String) :=
  match files.step? at_ name with
  | some place =>
    if ((files.root.at? place).map Tree.isFolder).getD false then some (files, place) else none
  | none =>
    match files.root.at? at_, files.root.at? (at_ ++ [name]) with
    | some (.folder _), none =>
      let place := at_ ++ [name]
      some ({ files with root := files.root.put place (.folder []) }, place)
    | _, _ => none

/-- The files after steps on which missing folders are made, up to the first step that cannot be
taken. -/
def makeAlong (files : Files) (at_ : List String) : List String → Files
  | [] => files
  | name :: rest =>
    match files.makeStep? at_ name with
    | some (files, place) => makeAlong files place rest
    | none => files

/-- The files after the missing folders on a path were made. Whatever stands in the way of one,
those before it are made. -/
def makeFolders (files : Files) (path : String) : Files :=
  files.makeAlong (files.origin path) (Path.makingSteps path)

/-- The path leads to a folder. The empty path asks for none. -/
def hasFolder (files : Files) (path : String) : Bool := path == "" || (files.enter? path).isSome

end Files

end ThriftIdl

import ThriftIdl.Table

/-!
Trees of files. A place in a tree is the list of names that leads to it.
-/

namespace ThriftIdl

/-- A file, a folder with named entries, or the device that is empty and forgets what is written
to it. -/
inductive Tree where
  | file (content : ByteArray)
  | folder (entries : List (String × Tree))
  | sink

namespace Tree

structure Found where
  names : List String
  content : ByteArray

def child? (tree : Tree) (name : String) : Option Tree :=
  match tree with
  | folder entries => Table.get? entries name
  | _ => none

/-- What stands at a place. -/
def at? : Tree → List String → Option Tree
  | tree, [] => some tree
  | tree, name :: rest => (tree.child? name).bind (·.at? rest)

def isFolder : Tree → Bool
  | folder _ => true
  | _ => false

/-- The tree with something else at a place. Folders on the way that are missing are made. -/
def put (tree : Tree) (place : List String) (node : Tree) : Tree :=
  match place with
  | [] => node
  | name :: rest =>
    let entries := match tree with
      | folder entries => entries
      | _ => []
    folder (Table.insert name (put ((Table.get? entries name).getD (folder [])) rest node) entries)

mutual

/-- All files below, depth first, the entries of each folder in the order of their names. -/
def walk : Tree → List Found
  | file content => [⟨[], content⟩]
  | sink => []
  | folder entries =>
    ((walkEntries entries).mergeSort fun left right => decide (left.1 ≤ right.1)).flatMap
      fun entry => entry.2.map fun found => { found with names := entry.1 :: found.names }

/-- The files below each entry. -/
def walkEntries : List (String × Tree) → List (String × List Found)
  | [] => []
  | (name, tree) :: rest => (name, walk tree) :: walkEntries rest

end

end Tree

end ThriftIdl

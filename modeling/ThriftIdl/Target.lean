import ThriftIdl.Namespace

/-!
Targets, and how documents are merged into them. There is a target for every name that a document
has a namespace for, and the default target. A document without a namespace for a target takes
part in it with its namespace for the default target.
-/

namespace ThriftIdl

/-- A target and its namespaces, in the order in which they came up. -/
structure Target where
  name : String
  namespaces : List Namespace
deriving DecidableEq

namespace Target

def namespace? (target : Target) (name : String) : Option Namespace :=
  target.namespaces.find? (·.name == name)

/-- The namespace with the name, which is empty if the target has none. -/
def namespaceOrEmpty (target : Target) (name : String) : Namespace :=
  (target.namespace? name).getD (.empty target.name name)

/-- The target with the namespace in the place of the one with its name, or at the end. -/
def put (target : Target) (space : Namespace) : Target :=
  if (target.namespace? space.name).isSome then
    { target with
      namespaces :=
        target.namespaces.map fun other => if other.name = space.name then space else other }
  else { target with namespaces := target.namespaces ++ [space] }

/-- The targets are equal, their namespaces in any order. -/
def same (left right : Target) : Bool :=
  left.name == right.name && left.namespaces.length == right.namespaces.length &&
    left.namespaces.all fun space => right.namespace? space.name == some space

/-- The namespace with the definitions of a document, one after the other. -/
def registerAll (space : Namespace) (document : Document) : Except Fault Namespace :=
  document.definitions.foldlM (fun space definition => space.register document.name definition)
    space

/-- The target with the definitions of a document. A document must have a namespace for it. -/
def merge (target : Target) (document : Document) : Except Fault Target :=
  match document.namespaceFor? target.name with
  | none =>
    .error {
      category := .internal
      message := .ok
        s!"document `{document.name}` has no namespace for target `{target.name}` and no default" }
  | some name =>
    match registerAll (target.namespaceOrEmpty name) document with
    | .ok space => .ok (target.put space)
    | .error fault => .error (fault.withSource document.lines)

/-- The target with the name, made of the documents in the given order. -/
def ofDocuments (documents : List Document) (name : String) : Except Fault Target :=
  documents.foldlM merge ⟨name, []⟩

def sortedNames (names : List String) : List String :=
  (names.mergeSort (fun left right => decide (left ≤ right))).eraseReps

/-- The names of all targets that the documents take part in, sorted. -/
def namesOf (documents : List Document) : List String :=
  sortedNames (documents.flatMap (·.namespaces.keys) ++ [defaultTarget])

def sortDocuments (documents : List Document) : List Document :=
  documents.mergeSort (fun left right => decide (left.name ≤ right.name))

/-- All targets of the documents. Targets and documents are taken in the order of their names, so
that the first clash is the same however the documents were added. -/
def resolve (documents : List Document) : Except Fault (List Target) :=
  (namesOf documents).mapM (ofDocuments (sortDocuments documents))

end Target

end ThriftIdl

import ThriftIdl.Document

/-!
Namespaces: what a target sees under one name. Definitions of several documents may share a
namespace, and there their names must differ.
-/

namespace ThriftIdl

/-- A definition by the document that declares it and its name. -/
structure Reference where
  document : String
  identifier : String
deriving DecidableEq

/-- A definition as a namespace holds it: its kind, the reference to it and where it was
declared. -/
structure Member where
  kind : Kind
  reference : Reference
  location : Location
deriving DecidableEq

def Member.ofDefinition (document : String) (definition : Definition) : Member where
  kind := definition.kind
  reference := ⟨document, definition.name⟩
  location := ⟨document, definition.line⟩

/-- A namespace of a target. Its members stand in the order of their kinds, those of one kind in
the order in which they were registered. -/
structure Namespace where
  target : String
  name : String
  members : List Member
deriving DecidableEq

namespace Namespace

def empty (target name : String) : Namespace := ⟨target, name, []⟩

/-- The name that tells the namespace from those of other targets. -/
def fullName (space : Namespace) : String :=
  s!"[target: {space.target}, namespace: {space.name}]"

def member? (space : Namespace) (identifier : String) : Option Member :=
  space.members.find? (·.reference.identifier == identifier)

def declaredAt? (space : Namespace) (identifier : String) : Option Location :=
  (space.member? identifier).map (·.location)

def size (space : Namespace) : Nat := space.members.length

/-- The references of a kind, in the order of registration. -/
def referencesOf (space : Namespace) (kind : Kind) : List Reference :=
  (space.members.filter (·.kind == kind)).map (·.reference)

def groups (space : Namespace) : List (Kind × List Reference) :=
  (Kind.all.map fun kind => (kind, space.referencesOf kind)).filter (!·.2.isEmpty)

/-- The members with one more, after those of its kind and of earlier kinds. -/
def place (member : Member) : List Member → List Member
  | [] => [member]
  | other :: rest =>
    if member.kind.rank < other.kind.rank then member :: other :: rest
    else other :: place member rest

/-- The namespace with one more definition, whose name must be new. -/
def register (space : Namespace) (document : String) (definition : Definition) :
    Except Fault Namespace :=
  match space.declaredAt? definition.name with
  | some earlier =>
    .error {
      category := .duplicateIdentifier .sharedNamespace earlier
      message := do
        return s!"identifier `{definition.name}` is already declared in namespace `{space.name}` " ++
          s!"of target `{space.target}` " ++ (← Rule.previously earlier)
      location? := some ⟨document, definition.line⟩ }
  | none =>
    .ok { space with members := place (.ofDefinition document definition) space.members }

end Namespace

end ThriftIdl

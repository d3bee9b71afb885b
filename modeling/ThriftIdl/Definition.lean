import ThriftIdl.Kind

/-!
Definitions and their members. Each carries the line it was declared on; the document is known
from where the definition stands.
-/

namespace ThriftIdl

structure Declared where
  name : String
  line : Nat
deriving DecidableEq

/-- A value of an enum, and whether its number was written out. -/
structure EnumValue where
  name : String
  value : Int32
  explicit : Bool
  line : Nat
deriving DecidableEq

/-- A field of a struct or exception, a parameter, or an exception that a function throws. -/
structure Field where
  id : Int16
  requiredness : Requiredness
  type : String
  name : String
  default? : Option String
  line : Nat
deriving DecidableEq

/-- A function of a service. Without a return type it is `void`. -/
structure Function where
  name : String
  returnType? : Option String
  oneway : Bool
  params : List Field
  throws : List Field
  line : Nat
deriving DecidableEq

/-- What a definition says about its name. Constants keep their value as written; a senum's
values are kept without quotes. -/
inductive Body where
  | const (type value : String)
  | typedef (type : String)
  | enum (values : List EnumValue)
  | senum (values : List String)
  | struct (fields : List Field)
  | exception (fields : List Field)
  | service (base? : Option String) (functions : List Function)
deriving DecidableEq

def Body.kind : Body → Kind
  | const .. => .const
  | typedef .. => .typedef
  | enum .. => .enum
  | senum .. => .senum
  | struct .. => .struct
  | exception .. => .exception
  | service .. => .service

structure Definition where
  declared : Declared
  body : Body
deriving DecidableEq

namespace Definition

def name (definition : Definition) : String := definition.declared.name

def line (definition : Definition) : Nat := definition.declared.line

def kind (definition : Definition) : Kind := definition.body.kind

/-- The first of the definitions with the name. -/
def lookup? (definitions : List Definition) (name : String) : Option Definition :=
  definitions.find? (·.name == name)

end Definition

end ThriftIdl

/-!
Identifiers: the names that definitions, members and base services may carry.
-/

namespace ThriftIdl

namespace Identifier

def isStart (c : Char) : Bool := c.isAlpha || c == '_'

def isContinue (c : Char) : Bool := c.isAlphanum || c == '_' || c == '-' || c == '.'

/-- The characters spell an identifier. -/
def spelledBy : List Char → Bool
  | [] => false
  | c :: rest => isStart c && rest.all isContinue

def isValid (name : String) : Bool := spelledBy name.toList

end Identifier

end ThriftIdl

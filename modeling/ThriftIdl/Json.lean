/-!
JSON values. Objects hold their members in order. Of a number only the value of an integer
matters here; a number with a fraction or exponent, and minus zero, is not an integer.
-/

namespace ThriftIdl

/-- A JSON value. -/
inductive Json where
  | null
  | bool (value : Bool)
  | integer (value : Int)
  | fractional
  | string (text : String)
  | array (items : List Json)
  | object (members : List (String × Json))

namespace Json

def member? (members : List (String × Json)) (key : String) : Option Json :=
  List.lookup key members

def ofNat (n : Nat) : Json := integer n

end Json

end ThriftIdl

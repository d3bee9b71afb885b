/-!
Integers as text: how they are written, and how decimal numbers of 16 bits and literals of 32 bits
are read. The magnitude of a literal is read in a word of 64 bits.
-/

namespace ThriftIdl.Text

/-- The text of an integer: its decimal digits, after a minus sign if it is negative. -/
def ofInt (value : Int) : String :=
  let digits := Nat.toDigits 10 value.natAbs
  String.ofList (if value < 0 then '-' :: digits else digits)

/-- How many values a word of 64 bits has. -/
def wordSize : Nat := 0x10000000000000000

/-- The value of an ASCII digit below the base, in either case. -/
def digit? (base : Nat) (c : Char) : Option Nat :=
  let n := c.toNat
  let value :=
    if '0' ≤ c ∧ c ≤ '9' then some (n - '0'.toNat)
    else if 'a' ≤ c ∧ c ≤ 'f' then some (n - 'a'.toNat + 10)
    else if 'A' ≤ c ∧ c ≤ 'F' then some (n - 'A'.toNat + 10)
    else none
  value.filter (· < base)

/-- The number that digits read from the left continue. -/
def naturalFrom? (base : Nat) (value : Nat) : List Char → Option Nat
  | [] => some value
  | c :: rest => (digit? base c).bind fun d => naturalFrom? base (value * base + d) rest

/-- The number that one or more digits denote. -/
def natural? (base : Nat) : List Char → Option Nat
  | [] => none
  | digits => naturalFrom? base 0 digits

/-- The sign of a number (negative or not) and what follows the sign. -/
def sign : List Char → Bool × List Char
  | '-' :: rest => (true, rest)
  | '+' :: rest => (false, rest)
  | text => (false, text)

def signed (negative : Bool) (magnitude : Nat) : Int :=
  if negative then -(magnitude : Int) else magnitude

def int16? (value : Int) : Option Int16 :=
  if -0x8000 ≤ value ∧ value ≤ 0x7FFF then some (Int16.ofInt value) else none

def int32? (value : Int) : Option Int32 :=
  if -0x80000000 ≤ value ∧ value ≤ 0x7FFFFFFF then some (Int32.ofInt value) else none

def int64? (value : Int) : Option Int64 :=
  if -0x8000000000000000 ≤ value ∧ value ≤ 0x7FFFFFFFFFFFFFFF then some (Int64.ofInt value)
  else none

/-- The word that digits read from the left continue. Each product and each sum must fit it. -/
def wordFrom? (base : Nat) (word : Int64) : List Char → Option Int64
  | [] => some word
  | c :: rest =>
    (digit? base c).bind fun d =>
      (int64? (word.toInt * base)).bind fun product =>
        (int64? (product.toInt + d)).bind fun sum => wordFrom? base sum rest

/-- The word that one or more digits denote. -/
def word? (base : Nat) : List Char → Option Int64
  | [] => none
  | digits => wordFrom? base 0 digits

/-- The magnitude of a literal: hexadecimal after `0x` or `0X`, else decimal. -/
def magnitude? : List Char → Option Int64
  | '0' :: 'x' :: digits => word? 16 digits
  | '0' :: 'X' :: digits => word? 16 digits
  | digits => word? 10 digits

def signedWord (negative : Bool) (magnitude : Int64) : Int64 :=
  if negative then -magnitude else magnitude

/-- A decimal number of 16 bits with an optional sign. -/
def decimal16? (text : String) : Option Int16 :=
  let (negative, digits) := sign text.toList
  (natural? 10 digits).bind fun n => int16? (signed negative n)

/-- A literal of 32 bits with an optional sign. -/
def literal32? (text : String) : Option Int32 :=
  let (negative, digits) := sign text.toList
  (magnitude? digits).bind fun word => int32? (signedWord negative word).toInt

end ThriftIdl.Text

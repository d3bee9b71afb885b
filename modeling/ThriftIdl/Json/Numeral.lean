import ThriftIdl.Json
import ThriftIdl.Text.Integer

/-!
Numbers in JSON text. A number without fraction and exponent that fits 64 bits is an integer. Any
other number stands for a double: a significand of 64 bits times a power of ten. Both of them are
rounded to doubles before they are multiplied, and a number whose product is not finite is
refused. So some numbers a little below the greatest double are refused too, and some a little
above it are not.
-/

namespace ThriftIdl.Json

/-- A number as it is written: its sign, the digits before and after the point, and the
exponent. -/
structure Numeral where
  negative : Bool
  whole : List Char
  fraction? : Option (List Char)
  exponent? : Option (Bool × List Char)

def readDigits (text : List Char) : Option (List Char × List Char) :=
  let digits := text.takeWhile Char.isDigit
  if digits.isEmpty then none else some (digits, text.dropWhile Char.isDigit)

def readFraction : List Char → Option (Option (List Char) × List Char)
  | '.' :: rest => (readDigits rest).map fun (digits, after) => (some digits, after)
  | text => some (none, text)

def readExponent : List Char → Option (Option (Bool × List Char) × List Char)
  | c :: rest =>
    if c = 'e' ∨ c = 'E' then
      let (negative, digits) := Text.sign rest
      (readDigits digits).map fun (digits, after) => (some (negative, digits), after)
    else some (none, c :: rest)
  | [] => some (none, [])

/-- A number whose sign is given, and what follows it. Zero is the only number that starts with
a zero. -/
def readNumeral (negative : Bool) (text : List Char) : Option (Numeral × List Char) := do
  let (whole, rest) ← readDigits text
  if whole.length > 1 ∧ whole.head? = some '0' then none
  else
    let (fraction?, rest) ← readFraction rest
    let (exponent?, rest) ← readExponent rest
    return (⟨negative, whole, fraction?, exponent?⟩, rest)

def decimal (digits : List Char) : Nat := (Text.natural? 10 digits).getD 0

/-- The significant bits of a double. -/
def doubleBits : Nat := 53

/-- No finite double is nearest to a number from here on: halfway between the greatest double and
the next power of two. -/
def doubleLimit : Nat := Nat.pow 2 1024 - Nat.pow 2 970

/-- The double nearest to a whole number below the limit; of two, the one whose last bit is zero. -/
def nearestDouble (n : Nat) : Nat :=
  let unit := Nat.pow 2 (n.log2 + 1 - doubleBits)
  let below := n / unit
  let excess := 2 * (n % unit)
  if unit < excess ∨ excess = unit ∧ below % 2 = 1 then (below + 1) * unit else below * unit

/-- The significand that takes the digits from the left until one of them would make it outgrow 64
bits, and the digits from that one on. -/
def takeDigits (significand : Nat) : List Char → Nat × List Char
  | [] => (significand, [])
  | c :: rest =>
    let grown := significand * 10 + (c.toNat - '0'.toNat)
    if grown < Text.wordSize then takeDigits grown rest else (significand, c :: rest)

/-- A significand and the power of ten that it is multiplied by. -/
structure Scaled where
  significand : Nat
  scale : Int

namespace Scaled

/-- The product is too large for a double. Every power of ten up to the 308th is one factor; there
is none beyond, and below one nothing can become too large. -/
def overflows (number : Scaled) : Bool :=
  if number.significand = 0 ∨ number.scale < 0 then false
  else if 308 < number.scale then true
  else
    let power := Nat.pow 10 number.scale.toNat
    doubleLimit ≤ nearestDouble number.significand * nearestDouble power

end Scaled

namespace Numeral

def exponent (number : Numeral) : Int :=
  match number.exponent? with
  | some (negative, digits) => Text.signed negative (decimal digits)
  | none => 0

/-- The magnitude of the number as a significand and a scale. A digit before the point that has no
room in the significand raises the scale by one, and a digit after the point that has room lowers
it by one. -/
def scaled (number : Numeral) : Scaled :=
  let (whole, cut) := takeDigits 0 number.whole
  let fraction := number.fraction?.getD []
  let (significand, dropped) := takeDigits whole fraction
  let taken : Nat := fraction.length - dropped.length
  ⟨significand, number.exponent + cut.length - taken⟩

/-- The number is written as a whole number and fits 64 bits, signed if it is negative. -/
def isInteger (number : Numeral) : Bool :=
  number.fraction?.isNone && number.exponent?.isNone &&
    let value := decimal number.whole
    if number.negative then 0 < value && 2 * value ≤ Text.wordSize
    else value < Text.wordSize

/-- The value of the number, unless it is too large. -/
def value? (number : Numeral) : Option Json :=
  if number.isInteger then some (.integer (Text.signed number.negative (decimal number.whole)))
  else if number.scaled.overflows then none
  else some .fractional

end Numeral

def readNumber (text : List Char) : Option (Json × List Char) := do
  let (number, rest) ←
    match text with
    | '-' :: rest => readNumeral true rest
    | text => readNumeral false text
  return (← number.value?, rest)

end ThriftIdl.Json

/-!
Blank characters, trimming, and the fields of a text. Blank means the Unicode property
`White_Space`. The working form of a text is its list of characters.
-/

namespace ThriftIdl.Text

/-- The characters with the Unicode property `White_Space`. -/
def isBlank (c : Char) : Bool :=
  let n := c.toNat
  (0x09 ≤ n && n ≤ 0x0D) || n == 0x20 || n == 0x85 || n == 0xA0 || n == 0x1680 ||
    (0x2000 ≤ n && n ≤ 0x200A) || n == 0x2028 || n == 0x2029 || n == 0x202F ||
    n == 0x205F || n == 0x3000

/-- The text without its longest end of characters in the class. -/
def dropEndWhile (p : Char → Bool) (text : List Char) : List Char :=
  (text.reverse.dropWhile p).reverse

def trimStart (text : List Char) : List Char := text.dropWhile isBlank

def trimEnd (text : List Char) : List Char := dropEndWhile isBlank text

def trim (text : List Char) : List Char := trimEnd (trimStart text)

/-- The maximal runs of characters that are not blank, in order. A character joins the first
field of what follows it unless a blank or the end stands between. -/
def fields : List Char → List (List Char)
  | [] => []
  | c :: rest =>
    if isBlank c then fields rest
    else
      match rest.head?.any (!isBlank ·), fields rest with
      | true, field :: more => (c :: field) :: more
      | _, more => [c] :: more

def fieldsOf (text : String) : List String := (fields text.toList).map String.ofList

end ThriftIdl.Text

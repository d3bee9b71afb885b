/-!
The lines of a text. A line ends at a line feed, and a carriage return right before the line
feed belongs to the line's end. Text after the last line feed is a line if it is not empty.
-/

namespace ThriftIdl.Text

/-- The lines of a text, without their ends. -/
def lines : List Char → List (List Char)
  | [] => []
  | '\n' :: rest => [] :: lines rest
  | '\r' :: '\n' :: rest => [] :: lines rest
  | c :: rest =>
    match lines rest with
    | [] => [[c]]
    | line :: more => (c :: line) :: more

def linesOf (text : String) : List String := (lines text.toList).map String.ofList

end ThriftIdl.Text

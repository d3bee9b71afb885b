import ThriftIdl.Kind
import ThriftIdl.Keyword.Distance
import ThriftIdl.Text.Lowercase

/-!
The words that open a line of a document, and the one that a mistyped word was meant to be.
-/

namespace ThriftIdl

/-- The directives that may stand before the first definition. -/
inductive Directive where
  | namespaceOf
  | includeFile
  | cppInclude
deriving DecidableEq

namespace Directive

def all : List Directive := [namespaceOf, includeFile, cppInclude]

def word : Directive → String
  | namespaceOf => "namespace"
  | includeFile => "include"
  | cppInclude => "cpp_include"

def ofWord? : String → Option Directive := spelled? word all

theorem ofWord?_eq_some_iff {word : String} {directive : Directive} :
    ofWord? word = some directive ↔ directive.word = word :=
  spelled?_eq_some_iff fun directive => by cases directive <;> decide

end Directive

namespace Keyword

/-- Every word that may open a line. -/
def all : List String := Directive.all.map Directive.word ++ Kind.all.map Kind.word

/-- How many edits a typed word of the length may be away from a keyword. -/
def budget (length : Nat) : Nat := if length ≤ 4 then 1 else 2

/-- The first of the candidates with the least cost. -/
def cheapest : List (String × Nat) → Option (String × Nat)
  | [] => none
  | candidate :: rest =>
    match cheapest rest with
    | some best => if best.2 < candidate.2 then some best else some candidate
    | none => some candidate

/-- The closest keyword to the word, if one is within its budget. Case is ignored. -/
def suggest (word : String) : Option String :=
  let typed := Text.lower word.toList
  let costs := all.map fun keyword => (keyword, distance typed keyword.toList)
  (cheapest (costs.filter (·.2 ≤ budget word.toList.length))).map Prod.fst

end Keyword

end ThriftIdl

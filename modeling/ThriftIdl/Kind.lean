import ThriftIdl.Spelling

/-!
The seven kinds of definitions, and how a field must be present.
-/

namespace ThriftIdl

/-- The kinds of definitions, in the order in which references are grouped. -/
inductive Kind where
  | const
  | typedef
  | enum
  | senum
  | struct
  | exception
  | service
deriving DecidableEq

namespace Kind

def all : List Kind := [const, typedef, enum, senum, struct, exception, service]

theorem mem_all (kind : Kind) : kind ∈ all := by cases kind <;> decide

/-- The keyword that opens a definition of the kind. -/
def word : Kind → String
  | const => "const"
  | typedef => "typedef"
  | enum => "enum"
  | senum => "senum"
  | struct => "struct"
  | exception => "exception"
  | service => "service"

def rank : Kind → Nat
  | const => 0
  | typedef => 1
  | enum => 2
  | senum => 3
  | struct => 4
  | exception => 5
  | service => 6

def ofWord? : String → Option Kind := spelled? word all

theorem ofWord?_eq_some_iff {word : String} {kind : Kind} :
    ofWord? word = some kind ↔ kind.word = word :=
  spelled?_eq_some_iff fun kind => by cases kind <;> decide

theorem word_injective {first second : Kind} (h : first.word = second.word) : first = second :=
  Option.some.inj ((ofWord?_eq_some_iff.2 h).symm.trans (ofWord?_eq_some_iff.2 rfl))

def unknownText (word : String) : String := s!"unknown definition kind `{word}`"

end Kind

/-- How a field must be present. -/
inductive Requiredness where
  | required
  | optional
  | unstated
deriving DecidableEq

namespace Requiredness

def word : Requiredness → String
  | required => "required"
  | optional => "optional"
  | unstated => "default"

def ofWord? : String → Option Requiredness := spelled? word [required, optional, unstated]

theorem ofWord?_eq_some_iff {word : String} {requiredness : Requiredness} :
    ofWord? word = some requiredness ↔ requiredness.word = word :=
  spelled?_eq_some_iff fun requiredness => by cases requiredness <;> decide

def unknownText (word : String) : String := s!"unknown requiredness `{word}`"

end Requiredness

end ThriftIdl

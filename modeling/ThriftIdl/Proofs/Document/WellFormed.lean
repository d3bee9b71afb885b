import ThriftIdl.Proofs.Grammar.WellFormed
import ThriftIdl.Proofs.Model.Parsed

/-!
A document that was read is well formed, whatever its text.
-/

namespace ThriftIdl.Document

/-- The places of the document's definitions and of their members. -/
def places (document : Document) : List Location :=
  document.definitions.flatMap fun definition =>
    (definition.line :: definition.body.lines).map document.place

/-- The document's definitions are well formed, each is found by its own name and no other, and
every place in them is one of its lines. -/
structure WellFormed (document : Document) : Prop where
  definitions : ∀ definition ∈ document.definitions, definition.WellFormed
  nodup_names : (document.definitions.map (·.name)).Nodup
  lookup?_eq_some_iff : ∀ name definition, document.lookup? name = some definition ↔
    definition ∈ document.definitions ∧ definition.name = name
  places : ∀ place ∈ document.places,
    place.document = document.name ∧ place.line < document.lines.length

/-- What the grammar read in a document: names are apart, and all lines are lines of it. -/
theorem kept_of_read {document result : Document} (h : document.read = .ok result) :
    (result.definitions.map (·.name)).Nodup ∧
      ∀ definition ∈ result.definitions, Grammar.Kept (· < document.lines.length) definition := by
  obtain ⟨definitions, hdefinitions, rfl⟩ := read_eq_ok_iff.1 h
  exact Grammar.readDefinitions_kept (by simp) (by simp) document.numbersIn_header_rest
    (readDefinitions_eq_ok hdefinitions)

theorem nodup_names_of_read {document result : Document} (h : document.read = .ok result) :
    (result.definitions.map (·.name)).Nodup :=
  (kept_of_read h).1

theorem definitions_of_read {document result : Document} (h : document.read = .ok result) :
    ∀ definition ∈ result.definitions, definition.WellFormed := by
  obtain ⟨definitions, hdefinitions, rfl⟩ := read_eq_ok_iff.1 h
  exact Grammar.readDefinitions_wellFormed (by simp) (readDefinitions_eq_ok hdefinitions)

theorem places_of_read {document result : Document} (h : document.read = .ok result)
    {place : Location} (hplace : place ∈ result.places) :
    place.document = result.name ∧ place.line < result.lines.length := by
  obtain ⟨definition, hdefinition, hplace⟩ := List.mem_flatMap.1 hplace
  obtain ⟨line, hline, rfl⟩ := List.mem_map.1 hplace
  have hkept := (kept_of_read h).2 definition hdefinition
  refine ⟨rfl, ?_⟩
  rw [(name_lines_of_read h).2]
  rcases List.mem_cons.1 hline with rfl | hline
  · exact hkept.line
  · exact hkept.lines line hline

/-- A document that can be read is well formed as read, and keeps its name and lines. -/
theorem wellFormed_of_read {document result : Document} (h : document.read = .ok result) :
    result.WellFormed ∧ result.name = document.name ∧ result.lines = document.lines := by
  refine ⟨?_, name_lines_of_read h⟩
  constructor
  · exact definitions_of_read h
  · exact nodup_names_of_read h
  · intro name definition
    exact Lookup.find?_eq_some_iff (nodup_names_of_read h)
  · intro place hplace
    exact places_of_read h hplace

/-- A document with members of every sort: explicit and implicit numbers, texts, fields with and
without defaults, and functions that return, throw or do neither. -/
def sampleSource : String :=
  "const i32 LIMIT = 5\ntypedef list<string> Names\nenum Mode \x7b A, B = 4, C \x7d\n" ++
  "senum Word \x7b \"on\", \"off\" \x7d\nexception Late \x7b 1: i32 after \x7d\n" ++
  "struct Item \x7b\n  1: required Names names,\n  2: i32 limit = 5\n\x7d\n" ++
  "service Desk extends Base \x7b\n  oneway void drop(1: Item item),\n" ++
  "  Item take(1: i32 id, 2: i32 wait) throws (Late)\n\x7d"

open Body (typedef) in
/-- The sample's definitions as they are read. -/
def sampleDefinitions : List Definition := [
  ⟨⟨"LIMIT", 0⟩, .const "i32" "5"⟩,
  ⟨⟨"Names", 1⟩, typedef "list<string>"⟩,
  ⟨⟨"Mode", 2⟩, .enum [⟨"A", 0, false, 2⟩, ⟨"B", 4, true, 2⟩, ⟨"C", 5, false, 2⟩]⟩,
  ⟨⟨"Word", 3⟩, .senum ["on", "off"]⟩,
  ⟨⟨"Late", 4⟩, .exception [⟨1, .unstated, "i32", "after", none, 4⟩]⟩,
  ⟨⟨"Item", 5⟩, .struct [
    ⟨1, .required, "Names", "names", none, 6⟩, ⟨2, .unstated, "i32", "limit", some "5", 7⟩]⟩,
  ⟨⟨"Desk", 9⟩, .service (some "Base") [
    ⟨"drop", none, true, [⟨1, .unstated, "Item", "item", none, 10⟩], [], 10⟩,
    ⟨"take", some "Item", false,
      [⟨1, .unstated, "i32", "id", none, 11⟩, ⟨2, .unstated, "i32", "wait", none, 11⟩],
      [⟨1, .unstated, "Late", "Late", none, 11⟩], 11⟩]⟩]

/-- The sample can be read, and so is well formed. -/
theorem wellFormed_sample :
    (ofSource "desk.thrift" sampleSource).read =
      .ok { ofSource "desk.thrift" sampleSource with definitions := sampleDefinitions } ∧
    { ofSource "desk.thrift" sampleSource with definitions := sampleDefinitions }.WellFormed := by
  have hread : (ofSource "desk.thrift" sampleSource).read =
      .ok { ofSource "desk.thrift" sampleSource with definitions := sampleDefinitions } := by
    decide +kernel
  exact ⟨hread, (wellFormed_of_read hread).1⟩

end ThriftIdl.Document

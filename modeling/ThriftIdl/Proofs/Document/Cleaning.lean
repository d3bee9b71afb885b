import ThriftIdl.Proofs.Document.Faults
import ThriftIdl.Proofs.Header

/-!
What is cleaned from documents carries no meaning. Documents whose cleaned lines hold the same texts
differ in blank lines, comments and indentation only. Where the lines of one stand in the other
tells how everything that is read from the one is renumbered for the other.
-/

namespace ThriftIdl

namespace Line

/-- The number of the line that stands among the second lines where the one with the number stands
among the first. -/
def counterpart : List Line → List Line → Nat → Nat
  | first :: left, second :: right, number =>
    if number = first.number then second.number else counterpart left right number
  | _, _, number => number

/-- Lines of the same texts are each other's with the numbers of their counterparts. -/
theorem map_renumber_counterpart {left right : List Line}
    (hordered : left.Pairwise (·.number < ·.number))
    (htexts : left.map (·.text) = right.map (·.text)) :
    left.map (renumber (counterpart left right)) = right := by
  induction left generalizing right with
  | nil => exact (List.map_eq_nil_iff.1 htexts.symm).symm
  | cons first left ih =>
    cases right with
    | nil => cases htexts
    | cons second right =>
      rw [List.map_cons, List.map_cons, List.cons.injEq] at htexts
      rw [List.pairwise_cons] at hordered
      have hfirst : first.renumber (counterpart (first :: left) (second :: right)) = second := by
        rw [renumber, counterpart, if_pos rfl, htexts.1]
      have hrest : ∀ line ∈ left, line.renumber (counterpart (first :: left) (second :: right)) =
          line.renumber (counterpart left right) := by
        intro line hline
        have hlater := hordered.1 line hline
        rw [renumber, counterpart, if_neg (by omega), renumber]
      rw [List.map_cons, hfirst, List.map_congr_left hrest, ih hordered.2 htexts.2]

/-- Counterparts of ordered lines are ordered as the lines are. -/
theorem counterpart_lt {left right : List Line} (hleft : left.Pairwise (·.number < ·.number))
    (hright : right.Pairwise (·.number < ·.number))
    (htexts : left.map (·.text) = right.map (·.text)) {first second : Line} (hfirst : first ∈ left)
    (hsecond : second ∈ left) (hlt : first.number < second.number) :
    counterpart left right first.number < counterpart left right second.number := by
  have hcounterparts : left.Pairwise fun first second =>
      counterpart left right first.number < counterpart left right second.number := by
    have hrenumbered := map_renumber_counterpart hleft htexts
    generalize counterpart left right = f at hrenumbered ⊢
    rw [← hrenumbered, List.pairwise_map] at hright
    exact hright
  obtain ⟨i, hi, rfl⟩ := List.mem_iff_getElem.1 hfirst
  obtain ⟨j, hj, rfl⟩ := List.mem_iff_getElem.1 hsecond
  rcases Nat.lt_trichotomy i j with hij | rfl | hji
  · exact List.pairwise_iff_getElem.1 hcounterparts i j hi hj hij
  · exact absurd hlt (Nat.lt_irrefl _)
  · exact absurd hlt (Nat.lt_asymm (List.pairwise_iff_getElem.1 hleft j i hj hi hji))

end Line

/-- The place with its line renumbered. -/
def Location.renumber (f : Nat → Nat) (place : Location) : Location :=
  { place with line := f place.line }

/-- The category with the place of the earlier declaration renumbered. -/
def Category.renumber (f : Nat → Nat) : Category → Category
  | duplicateIdentifier scope earlier => duplicateIdentifier scope (earlier.renumber f)
  | duplicateMember construct earlier => duplicateMember construct (earlier.renumber f)
  | category => category

/-- The warning on another line, with other lines as its source. -/
def Warning.renumber (f : Nat → Nat) (lines : List String) (warning : Warning) : Warning :=
  { warning with location := warning.location.renumber f, source? := some lines }

/-- The fault of a document is that of another with its lines renumbered. Only the place of a
missing definition is not, and the messages differ only in the earlier place that they name. -/
structure Fault.Agrees (f : Nat → Nat) (fault other : Fault) : Prop where
  category_eq : other.category = fault.category.renumber f
  help?_eq : other.help? = fault.help?
  location?_eq : fault.category ≠ .noDefinitions →
    other.location? = fault.location?.map (Location.renumber f)
  message_eq : fault.category.renumber f = fault.category → other.message = fault.message

namespace Rule

variable (f : Nat → Nat) (rule : Rule) (document : String)

theorem category_renumber :
    (rule.renumber f).category document = (rule.category document).renumber f := by
  cases rule <;> rfl

theorem help?_renumber : (rule.renumber f).help? = rule.help? := by
  cases rule <;> rfl

theorem category_eq_noDefinitions_iff :
    rule.category document = .noDefinitions ↔ rule = .noDefinitions := by
  cases rule with
  | noDefinitions => exact iff_of_true rfl rfl
  | _ => exact iff_of_false (by simp [category]) (by simp)

/-- A rule whose fault is of the same category when renumbered is the same rule. -/
theorem renumber_eq_self
    (h : (rule.category document).renumber f = rule.category document) :
    rule.renumber f = rule := by
  cases rule with
  | redefined name earlier =>
    simp only [category, Category.renumber, Location.renumber, Category.duplicateIdentifier.injEq,
      Location.mk.injEq, true_and] at h
    rw [renumber, h]
  | repeated clash earlier =>
    simp only [category, Category.renumber, Location.renumber, Category.duplicateMember.injEq,
      Location.mk.injEq, true_and] at h
    rw [renumber, h]
  | _ => rfl

end Rule

/-- The faults of a rule and of the same rule renumbered agree, on lines that are renumbered too. -/
theorem Violation.agrees_fault {f : Nat → Nat} {violation other : Violation}
    (hrule : other.rule = violation.rule.renumber f)
    (hline : violation.rule ≠ .noDefinitions → other.line = f violation.line)
    (document : String) (left right : List String) :
    ((violation.fault document).withSource left).Agrees f
      ((other.fault document).withSource right) := by
  rw [Fault.withSource_eq, Fault.withSource_eq]
  refine ⟨?_, ?_, ?_, ?_⟩
  · exact (congrArg (Rule.category document) hrule).trans
      (violation.rule.category_renumber f document)
  · exact (congrArg Rule.help? hrule).trans (violation.rule.help?_renumber f)
  · intro hcategory
    have hother := hline ((violation.rule.category_eq_noDefinitions_iff document).not.1 hcategory)
    obtain ⟨line, rule⟩ := violation
    obtain ⟨_, _⟩ := other
    cases hrule
    cases hother
    cases rule <;> rfl
  · intro hcategory
    have hsame := violation.rule.renumber_eq_self f document hcategory
    exact congrArg (Rule.message document) (hrule.trans hsame)

namespace Document

variable {left right : Document} {f : Nat → Nat}

/-- Where the meaningful lines of a document stand in another. -/
def counterpart (left right : Document) : Nat → Nat :=
  Line.counterpart (Line.meaningful left.lines) (Line.meaningful right.lines)

/-- Both documents could be read, to the same namespaces and the renumbered definitions; or none of
both could, for faults that agree. -/
def Agree (f : Nat → Nat) : Except Fault Document → Except Fault Document → Prop
  | .ok first, .ok second => second.name = first.name ∧ second.namespaces = first.namespaces ∧
      second.definitions = first.definitions.map (Definition.renumber f)
  | .error first, .error second => first.Agrees f second
  | _, _ => False

/-- Definitions after a renumbered header are the renumbered ones, or the same rule is broken. -/
theorem readDefinitions_renumber (hheader : right.header = left.header.renumber f) :
    (∃ definitions, left.readDefinitions = .ok definitions ∧
      right.readDefinitions = .ok (definitions.map (Definition.renumber f))) ∨
    ∃ violation other, left.readDefinitions = .error violation ∧
      right.readDefinitions = .error other ∧ other.rule = violation.rule.renumber f ∧
      (violation.rule ≠ .noDefinitions → other.line = f violation.line) := by
  have hrest : Grammar.readDefinitions [] right.header.rest =
      Grammar.renumbered f (List.map (Definition.renumber f))
        (Grammar.readDefinitions [] left.header.rest) := by
    rw [hheader]
    exact Grammar.readDefinitions_renumber [] left.header.rest
  rw [readDefinitions, readDefinitions, hrest]
  cases Grammar.readDefinitions [] left.header.rest with
  | error violation => exact Or.inr ⟨violation, _, rfl, rfl, rfl, fun _ => rfl⟩
  | ok definitions =>
    cases definitions with
    | nil => exact Or.inr ⟨_, _, rfl, rfl, rfl, fun hrule => absurd rfl hrule⟩
    | cons definition definitions => exact Or.inl ⟨_, rfl, rfl⟩

/-- Documents of one name whose cleaned lines hold the same texts are read alike. The meaningful
lines of the one are those of the other with other numbers, in the same order, and with these
numbers both have the same warnings and the same definitions, or break the same rule. -/
theorem agree_of_texts (hname : left.name = right.name)
    (hnamespaces : left.namespaces = right.namespaces)
    (htexts : (Line.meaningful left.lines).map (·.text) =
      (Line.meaningful right.lines).map (·.text)) :
    (Line.meaningful left.lines).map (Line.renumber (left.counterpart right)) =
        Line.meaningful right.lines ∧
      (∀ first ∈ Line.meaningful left.lines, ∀ second ∈ Line.meaningful left.lines,
        first.number < second.number →
        left.counterpart right first.number < left.counterpart right second.number) ∧
      right.warnings = left.warnings.map
        (Warning.renumber (left.counterpart right) right.lines) ∧
      Agree (left.counterpart right) left.read right.read := by
  have hleft := Line.pairwise_meaningfulFrom 0 left.lines
  have hright := Line.pairwise_meaningfulFrom 0 right.lines
  have hlines : (Line.meaningful left.lines).map (Line.renumber (left.counterpart right)) =
      Line.meaningful right.lines := Line.map_renumber_counterpart hleft htexts
  have hheader : right.header = left.header.renumber (left.counterpart right) := by
    rw [header, ← hlines, Header.read_renumber, ← hnamespaces, header]
  refine ⟨hlines, fun _ hfirst _ hsecond => Line.counterpart_lt hleft hright htexts hfirst hsecond,
    ?_, ?_⟩
  · rw [warnings, hheader, Header.renumber, warnings, List.map_map, List.map_map]
    apply List.map_congr_left
    intro notice _
    simp only [Function.comp_apply, Notice.renumber, place, ← hname]
    rfl
  · rw [read, read]
    rcases readDefinitions_renumber hheader with
      ⟨definitions, hfirst, hsecond⟩ | ⟨violation, other, hfirst, hsecond, hrule, hline⟩
    · rw [hfirst, hsecond]
      exact ⟨hname.symm, by rw [hheader, Header.renumber], rfl⟩
    · rw [hfirst, hsecond, ← hname]
      exact Violation.agrees_fault hrule hline left.name left.lines right.lines

/-- A document that declares a field twice, after a directive that is skipped. -/
def dense : Document :=
  ofSource "a.thrift" "include \"b\"\nstruct S \x7b\n1: i32 a\n2: i32 a\n\x7d"

/-- The same document with blank lines, comments and indentation. -/
def airy : Document :=
  ofSource "a.thrift"
    "// c\n include \"b\" # d\n\nstruct S \x7b\n# e\n\t1: i32 a // f\n\n  2: i32 a\n\x7d\n"

/-- The faults of both are on the second field and name the first. -/
theorem agree_of_texts_airy : [0, 1, 2, 3, 4].map (dense.counterpart airy) = [1, 3, 5, 7, 8] ∧
    airy.warnings = dense.warnings.map (Warning.renumber (dense.counterpart airy) airy.lines) ∧
    ∃ fault other, dense.read = .error fault ∧ airy.read = .error other ∧
      fault.category = .duplicateMember .field ⟨"a.thrift", 2⟩ ∧
      other.category = .duplicateMember .field ⟨"a.thrift", 5⟩ ∧
      fault.Agrees (dense.counterpart airy) other := by
  have htexts : (Line.meaningful dense.lines).map (·.text) =
      (Line.meaningful airy.lines).map (·.text) := by decide +kernel
  have hcounterpart : [0, 1, 2, 3, 4].map (dense.counterpart airy) = [1, 3, 5, 7, 8] := by
    decide +kernel
  have hdense : dense.read = .error {
      category := .duplicateMember .field ⟨"a.thrift", 2⟩
      message := .ok "field `a` is already declared (previous declaration at a.thrift:3)"
      location? := some ⟨"a.thrift", 3⟩
      source? := some dense.lines } := by
    decide +kernel
  have hname : dense.name = airy.name := rfl
  have hnamespaces : dense.namespaces = airy.namespaces := rfl
  obtain ⟨-, -, hwarnings, hagree⟩ := agree_of_texts hname hnamespaces htexts
  rw [hdense] at hagree
  cases hairy : airy.read with
  | ok parsed =>
    rw [hairy] at hagree
    cases hagree
  | error other =>
    rw [hairy] at hagree
    refine ⟨hcounterpart, hwarnings, _, other, hdense, rfl, rfl, ?_, hagree⟩
    rw [hagree.category_eq]
    decide +kernel

end Document

end ThriftIdl

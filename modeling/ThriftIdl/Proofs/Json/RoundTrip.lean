import ThriftIdl.Proofs.Json.Scalar
import ThriftIdl.Proofs.Table

/-!
JSON values in text: a value that text can carry is read back from its printed form.
-/

namespace ThriftIdl.Json

/-- A value that JSON text carries: arrays and objects nest at most `depth` deep, numbers are
integers of 64 bits, and no object has a key twice. -/
inductive Carried : Nat → Json → Prop
  | null {depth : Nat} : Carried depth null
  | bool {depth : Nat} (value : Bool) : Carried depth (bool value)
  | integer {depth : Nat} {value : Int} (h : InRange value) : Carried depth (integer value)
  | string {depth : Nat} (text : String) : Carried depth (string text)
  | array {depth : Nat} {items : List Json} (hitems : ∀ item ∈ items, Carried depth item) :
    Carried (depth + 1) (array items)
  | object {depth : Nat} {members : List (String × Json)} (hkeys : (Table.keys members).Nodup)
    (hmembers : ∀ member ∈ members, Carried depth member.2) : Carried (depth + 1) (object members)

theorem skipSpace_append {blanks : List Char} (rest : List Char)
    (h : ∀ c ∈ blanks, isSpace c = true) : skipSpace (blanks ++ rest) = skipSpace rest :=
  List.dropWhile_append_of_pos h

theorem skipSpace_cons {c : Char} (rest : List Char) (h : isSpace c = false) :
    skipSpace (c :: rest) = c :: rest := by
  simp [skipSpace, h]

theorem skipSpace_skipSpace (text : List Char) : skipSpace (skipSpace text) = skipSpace text := by
  induction text with
  | nil => rfl
  | cons c text ih =>
    by_cases h : isSpace c = true
    · simpa [skipSpace, h] using ih
    · simp [skipSpace, h]

@[simp] theorem skipSpace_lineStart (depth : Nat) (rest : List Char) :
    skipSpace (lineStart depth ++ rest) = skipSpace rest := by
  apply skipSpace_append
  intro c hc
  simp only [lineStart, List.mem_cons, List.mem_replicate] at hc
  rcases hc with rfl | ⟨_, rfl⟩
  · decide
  · decide

theorem readValue_skipSpace (fuel depth : Nat) (text : List Char) :
    readValue fuel depth (skipSpace text) = readValue fuel depth text := by
  cases fuel with
  | zero => rfl
  | succ fuel => rw [readValue, readValue, skipSpace_skipSpace]

theorem readItems_skipSpace (fuel depth : Nat) (text : List Char) :
    readItems fuel depth (skipSpace text) = readItems fuel depth text := by
  cases fuel with
  | zero => rfl
  | succ fuel => rw [readItems, readItems, readValue_skipSpace]

theorem readMembers_skipSpace (fuel depth : Nat) (text : List Char) :
    readMembers fuel depth (skipSpace text) = readMembers fuel depth text := by
  cases fuel with
  | zero => rfl
  | succ fuel => rw [readMembers, readMembers, skipSpace_skipSpace]

theorem endsNumber_cons {c : Char} (rest : List Char)
    (h : c.isDigit = false ∧ c ≠ '.' ∧ c ≠ 'e' ∧ c ≠ 'E') : EndsNumber (c :: rest) := by
  intro d hd
  cases hd
  exact h

theorem endsNumber_lineStart (depth : Nat) (rest : List Char) :
    EndsNumber (lineStart depth ++ rest) :=
  endsNumber_cons _ (by decide)

/-- The characters that a printed number starts with. -/
def StartsNumber (c : Char) : Prop := c = '-' ∨ c.isDigit = true

theorem startsNumber_ofInt (value : Int) :
    ∃ c rest, (Text.ofInt value).toList = c :: rest ∧ StartsNumber c := by
  by_cases hneg : value < 0
  · exact ⟨'-', Nat.toDigits 10 value.natAbs, by simp [Text.ofInt, hneg], Or.inl rfl⟩
  · cases hdigits : Nat.toDigits 10 value.natAbs with
    | nil => exact absurd hdigits Nat.toDigits_ne_nil
    | cons c digits =>
      have hc := isDigit_toDigits value.natAbs c (by simp [hdigits])
      exact ⟨c, digits, by simp [Text.ofInt, hneg, hdigits], Or.inr hc⟩

theorem StartsNumber.ne {c d : Char} (h : StartsNumber c) (hminus : d ≠ '-')
    (hdigit : d.isDigit = false) : c ≠ d := by
  rintro rfl
  rcases h with h | h
  · exact hminus h
  · exact absurd h (by simp [hdigit])

theorem StartsNumber.isSpace {c : Char} (h : StartsNumber c) : isSpace c = false := by
  have hblank := h.ne (d := ' ') (by decide) (by decide)
  have hfeed := h.ne (d := '\n') (by decide) (by decide)
  have hreturn := h.ne (d := '\r') (by decide) (by decide)
  have htab := h.ne (d := '\t') (by decide) (by decide)
  simp [Json.isSpace, hblank, hfeed, hreturn, htab]

theorem readValue_number {c : Char} (h : StartsNumber c) (fuel depth : Nat) (text : List Char) :
    readValue (fuel + 1) depth (c :: text) = readNumber (c :: text) := by
  rw [readValue, skipSpace_cons _ h.isSpace]
  split
  · next heq => exact absurd heq (by simp)
  · next heq => exact absurd (List.cons.inj heq).1 (h.ne (by decide) (by decide))
  · next heq => exact absurd (List.cons.inj heq).1 (h.ne (by decide) (by decide))
  · next heq => exact absurd (List.cons.inj heq).1 (h.ne (by decide) (by decide))
  · next heq => exact absurd (List.cons.inj heq).1 (h.ne (by decide) (by decide))
  · next heq => exact absurd (List.cons.inj heq).1 (h.ne (by decide) (by decide))
  · next heq => exact absurd (List.cons.inj heq).1 (h.ne (by decide) (by decide))
  · rfl

/-- A printed value starts with a character that neither is a blank nor closes anything. -/
theorem print_eq_cons {depth : Nat} {value : Json} (h : Carried depth value) (indent : Nat) :
    ∃ c rest, print indent value = c :: rest ∧ isSpace c = false ∧ c ≠ ']' := by
  cases h with
  | null => exact ⟨'n', _, rfl, by decide, by decide⟩
  | bool value =>
    cases value with
    | true => exact ⟨'t', _, rfl, by decide, by decide⟩
    | false => exact ⟨'f', _, rfl, by decide, by decide⟩
  | @integer _ value _ =>
    obtain ⟨c, rest, heq, hc⟩ := startsNumber_ofInt value
    exact ⟨c, rest, by rw [print, heq], hc.isSpace, hc.ne (by decide) (by decide)⟩
  | string text => exact ⟨'"', _, by rw [print, quoted, List.cons_append], by decide, by decide⟩
  | @array _ items _ =>
    cases items with
    | nil => exact ⟨'[', _, by simp [print, printItems, bracketed]; rfl, by decide, by decide⟩
    | cons item items =>
      exact ⟨'[', _, by simp [print, printItems, bracketed]; rfl, by decide, by decide⟩
  | @object _ members _ _ =>
    cases members with
    | nil => exact ⟨'{', _, by simp [print, printMembers, bracketed]; rfl, by decide, by decide⟩
    | cons member members =>
      exact ⟨'{', _, by simp [print, printMembers, bracketed]; rfl, by decide, by decide⟩

theorem lineUp_cons_cons (depth : Nat) (first second : List Char) (parts : List (List Char)) :
    lineUp depth (first :: second :: parts) =
      lineStart depth ++ first ++ ',' :: lineUp depth (second :: parts) := by
  rw [lineUp]
  simp

theorem lineStart_length (depth : Nat) : 0 < (lineStart depth).length := by
  simp [lineStart]

/-- Reading at a depth undoes printing the value. What follows the value is left, if it ends a
number. -/
def ReadsBack (depth : Nat) (value : Json) : Prop :=
  ∀ indent fuel rest, 2 * (print indent value).length ≤ fuel → EndsNumber rest →
    readValue fuel depth (print indent value ++ rest) = some (value, rest)

/-- The same after the start of a line. -/
theorem ReadsBack.after_lineStart {depth : Nat} {value : Json} (h : ReadsBack depth value)
    (indent : Nat) {fuel : Nat} {rest : List Char}
    (hfuel : 2 * (print indent value).length ≤ fuel) (hrest : EndsNumber rest) :
    readValue fuel depth (lineStart indent ++ (print indent value ++ rest)) =
      some (value, rest) := by
  rw [← readValue_skipSpace, skipSpace_lineStart, readValue_skipSpace,
    h indent fuel rest hfuel hrest]

theorem readItems_lineUp {depth : Nat} {items : List Json}
    (hread : ∀ item ∈ items, ReadsBack depth item) (hne : items ≠ []) (indent outer fuel : Nat)
    (rest : List Char) (hfuel : 2 * (lineUp indent (printItems indent items)).length ≤ fuel) :
    readItems fuel depth
        (lineUp indent (printItems indent items) ++ (lineStart outer ++ ']' :: rest)) =
      some (items, rest) := by
  induction items generalizing fuel with
  | nil => exact absurd rfl hne
  | cons item items ih =>
    have hitem := hread item List.mem_cons_self
    have hline := lineStart_length indent
    cases items with
    | nil =>
      simp only [printItems, lineUp] at hfuel ⊢
      simp only [List.length_append] at hfuel
      obtain ⟨fuel, rfl⟩ : ∃ less, fuel = less + 1 := ⟨fuel - 1, by omega⟩
      rw [readItems, List.append_assoc,
        hitem.after_lineStart indent (by omega) (endsNumber_lineStart _ _)]
      simp [skipSpace_cons, isSpace]
    | cons second items =>
      simp only [printItems] at hfuel ih ⊢
      rw [lineUp_cons_cons] at hfuel ⊢
      simp only [List.length_append, List.length_cons] at hfuel
      obtain ⟨fuel, rfl⟩ : ∃ less, fuel = less + 1 := ⟨fuel - 1, by omega⟩
      have htail := ih (fun item hitem => hread item (List.mem_cons_of_mem _ hitem)) (by simp)
        fuel (by omega)
      rw [readItems, List.append_assoc, List.append_assoc, List.cons_append,
        hitem.after_lineStart indent (by omega) (endsNumber_cons _ (by decide))]
      simp [skipSpace_cons, isSpace, htail]

/-- A member that is printed is read, and then what its comma or the brace asks for. -/
theorem readMembers_print {depth : Nat} {value : Json} (h : ReadsBack depth value) (key : String)
    (indent : Nat) {fuel : Nat} {rest : List Char}
    (hfuel : 2 * (print indent value).length ≤ fuel) (hrest : EndsNumber rest) (more : List Char) :
    (skipSpace rest = ',' :: more →
      readMembers (fuel + 1) depth
          (lineStart indent ++ (quoted key ++ ':' :: ' ' :: print indent value ++ rest)) =
        (readMembers fuel depth more).map fun (members, rest) => ((key, value) :: members, rest)) ∧
    (skipSpace rest = '}' :: more →
      readMembers (fuel + 1) depth
          (lineStart indent ++ (quoted key ++ ':' :: ' ' :: print indent value ++ rest)) =
        some ([(key, value)], more)) := by
  have hvalue : readValue fuel depth (' ' :: (print indent value ++ rest)) = some (value, rest) := by
    have hblank : skipSpace (' ' :: (print indent value ++ rest)) =
        skipSpace (print indent value ++ rest) := rfl
    rw [← readValue_skipSpace, hblank, readValue_skipSpace, h indent fuel rest hfuel hrest]
  have hkey : quoted key ++ ':' :: ' ' :: print indent value ++ rest =
      '"' :: (key.toList.flatMap escape ++ '"' :: ':' :: ' ' :: (print indent value ++ rest)) := by
    simp [quoted]
  rw [readMembers, skipSpace_lineStart, hkey, skipSpace_cons _ (by decide)]
  simp only [readString_flatMap_escape, Option.bind_eq_bind, Option.bind_some,
    skipSpace_cons (c := ':') _ (by decide), hvalue, String.ofList_toList]
  constructor
  · intro hcomma
    simp only [hcomma, Option.map_eq_bind]
    rfl
  · intro hbrace
    simp only [hbrace]
    rfl

theorem readMembers_lineUp {depth : Nat} {members : List (String × Json)}
    (hread : ∀ member ∈ members, ReadsBack depth member.2) (hne : members ≠ [])
    (indent outer fuel : Nat) (rest : List Char)
    (hfuel : 2 * (lineUp indent (printMembers indent members)).length ≤ fuel) :
    readMembers fuel depth
        (lineUp indent (printMembers indent members) ++ (lineStart outer ++ '}' :: rest)) =
      some (members, rest) := by
  induction members generalizing fuel with
  | nil => exact absurd rfl hne
  | cons member members ih =>
    obtain ⟨key, value⟩ := member
    have hvalue : ReadsBack depth value := hread (key, value) List.mem_cons_self
    have hline := lineStart_length indent
    cases members with
    | nil =>
      simp only [printMembers, lineUp] at hfuel ⊢
      simp only [List.length_append, List.length_cons] at hfuel
      obtain ⟨fuel, rfl⟩ : ∃ less, fuel = less + 1 := ⟨fuel - 1, by omega⟩
      rw [List.append_assoc]
      apply (readMembers_print hvalue key indent (by omega) (endsNumber_lineStart _ _) rest).2
      rw [skipSpace_lineStart, skipSpace_cons _ (by decide)]
    | cons second members =>
      simp only [printMembers] at hfuel ih ⊢
      rw [lineUp_cons_cons] at hfuel ⊢
      simp only [List.length_append, List.length_cons] at hfuel
      obtain ⟨fuel, rfl⟩ : ∃ less, fuel = less + 1 := ⟨fuel - 1, by omega⟩
      have htail := ih (fun member hmember => hread member (List.mem_cons_of_mem _ hmember))
        (by simp) fuel (by omega)
      rw [List.append_assoc, List.append_assoc, List.cons_append,
        (readMembers_print hvalue key indent (by omega) (endsNumber_cons _ (by decide)) _).1
          (skipSpace_cons _ (by decide))]
      simp only [htail, Option.map_some]

theorem readValue_array {fuel depth : Nat} {text : List Char}
    (h : ∀ rest, skipSpace text ≠ ']' :: rest) :
    readValue (fuel + 1) (depth + 1) ('[' :: text) =
      (readItems fuel depth text).map fun (items, rest) => (array items, rest) := by
  rw [readValue, skipSpace_cons _ (by decide)]
  simp only [readItems_skipSpace]

theorem readValue_object {fuel depth : Nat} {text : List Char}
    (h : ∀ rest, skipSpace text ≠ '}' :: rest) :
    readValue (fuel + 1) (depth + 1) ('{' :: text) =
      (readMembers fuel depth text).map fun (members, rest) =>
        (object (Table.ofPairs members), rest) := by
  rw [readValue, skipSpace_cons _ (by decide)]
  simp only [readMembers_skipSpace]

/-- After its opening bracket the text of a list goes on with the first character of its first
part. -/
theorem skipSpace_lineUp {c : Char} (hspace : isSpace c = false) (depth : Nat) (part : List Char)
    (parts : List (List Char)) (rest : List Char) :
    ∃ more, skipSpace (lineUp depth ((c :: part) :: parts) ++ rest) = c :: more := by
  cases parts with
  | nil =>
    refine ⟨part ++ rest, ?_⟩
    rw [lineUp, List.append_assoc, skipSpace_lineStart, List.cons_append, skipSpace_cons _ hspace]
  | cons second parts =>
    refine ⟨part ++ (',' :: lineUp depth (second :: parts) ++ rest), ?_⟩
    rw [lineUp_cons_cons, List.append_assoc, List.append_assoc, skipSpace_lineStart,
      List.cons_append, skipSpace_cons _ hspace]

theorem readsBack_array {depth : Nat} {items : List Json}
    (hitems : ∀ item ∈ items, Carried depth item)
    (hread : ∀ item ∈ items, ReadsBack depth item) : ReadsBack (depth + 1) (array items) := by
  intro indent fuel rest hfuel hrest
  cases items with
  | nil =>
    simp only [print, printItems, bracketed, List.isEmpty_nil, if_true, List.length_cons]
      at hfuel ⊢
    obtain ⟨fuel, rfl⟩ : ∃ less, fuel = less + 1 := ⟨fuel - 1, by omega⟩
    rw [readValue]
    simp [skipSpace_cons, isSpace]
  | cons item items =>
    have hprint : print indent (array (item :: items)) =
        '[' :: (lineUp (indent + 1) (printItems (indent + 1) (item :: items)) ++
          (lineStart indent ++ [']'])) := by
      simp [print, printItems, bracketed]
    rw [hprint] at hfuel ⊢
    simp only [List.length_cons, List.length_append] at hfuel
    obtain ⟨fuel, rfl⟩ : ∃ less, fuel = less + 1 := ⟨fuel - 1, by omega⟩
    have hbody := readItems_lineUp hread (by simp) (indent + 1) indent fuel rest (by omega)
    have hopen : ∀ more, skipSpace (lineUp (indent + 1) (printItems (indent + 1) (item :: items)) ++
        (lineStart indent ++ ']' :: rest)) ≠ ']' :: more := by
      intro more heq
      obtain ⟨c, part, hpart, hspace, hclose⟩ :=
        print_eq_cons (hitems item List.mem_cons_self) (indent + 1)
      rw [printItems, hpart] at heq
      obtain ⟨tail, htail⟩ := skipSpace_lineUp hspace (indent + 1) part
        (printItems (indent + 1) items) (lineStart indent ++ ']' :: rest)
      exact hclose (List.cons.inj (htail.symm.trans heq)).1
    rw [List.cons_append, List.append_assoc, List.append_assoc, List.singleton_append,
      readValue_array hopen, hbody, Option.map_some]

theorem readsBack_object {depth : Nat} {members : List (String × Json)}
    (hkeys : (Table.keys members).Nodup)
    (hread : ∀ member ∈ members, ReadsBack depth member.2) :
    ReadsBack (depth + 1) (object members) := by
  intro indent fuel rest hfuel hrest
  cases members with
  | nil =>
    simp only [print, printMembers, bracketed, List.isEmpty_nil, if_true, List.length_cons]
      at hfuel ⊢
    obtain ⟨fuel, rfl⟩ : ∃ less, fuel = less + 1 := ⟨fuel - 1, by omega⟩
    rw [readValue]
    simp [skipSpace_cons, isSpace]
  | cons member members =>
    have hprint : print indent (object (member :: members)) =
        '{' :: (lineUp (indent + 1) (printMembers (indent + 1) (member :: members)) ++
          (lineStart indent ++ ['}'])) := by
      simp [print, printMembers, bracketed]
    rw [hprint] at hfuel ⊢
    simp only [List.length_cons, List.length_append] at hfuel
    obtain ⟨fuel, rfl⟩ : ∃ less, fuel = less + 1 := ⟨fuel - 1, by omega⟩
    have hbody := readMembers_lineUp hread (by simp) (indent + 1) indent fuel rest (by omega)
    have hopen : ∀ more, skipSpace (lineUp (indent + 1)
        (printMembers (indent + 1) (member :: members)) ++
        (lineStart indent ++ '}' :: rest)) ≠ '}' :: more := by
      intro more heq
      rw [printMembers, quoted, List.cons_append, List.cons_append] at heq
      obtain ⟨tail, htail⟩ := skipSpace_lineUp (c := '"') (by decide) (indent + 1) _
        (printMembers (indent + 1) members) (lineStart indent ++ '}' :: rest)
      exact absurd (List.cons.inj (htail.symm.trans heq)).1 (by decide)
    rw [List.cons_append, List.append_assoc, List.append_assoc, List.singleton_append,
      readValue_object hopen, hbody, Option.map_some]
    simp only [Table.ofPairs_eq_self hkeys]

/-- Every value that text carries is read back from its print, at any indentation. -/
theorem Carried.readsBack {depth : Nat} {value : Json} (h : Carried depth value) :
    ReadsBack depth value := by
  induction h with
  | @null depth =>
    intro indent fuel rest hfuel _
    simp only [print] at hfuel ⊢
    obtain ⟨fuel, rfl⟩ : ∃ less, fuel = less + 1 := ⟨fuel - 1, by simp at hfuel; omega⟩
    simp [readValue, skipSpace_cons, isSpace, after?]
  | @bool depth value =>
    intro indent fuel rest hfuel _
    cases value with
    | true =>
      simp only [print] at hfuel ⊢
      obtain ⟨fuel, rfl⟩ : ∃ less, fuel = less + 1 := ⟨fuel - 1, by simp at hfuel; omega⟩
      simp [readValue, skipSpace_cons, isSpace, after?]
    | false =>
      simp only [print] at hfuel ⊢
      obtain ⟨fuel, rfl⟩ : ∃ less, fuel = less + 1 := ⟨fuel - 1, by simp at hfuel; omega⟩
      simp [readValue, skipSpace_cons, isSpace, after?]
  | @integer depth value hvalue =>
    intro indent fuel rest hfuel hrest
    rw [print] at hfuel ⊢
    obtain ⟨c, digits, hdigits, hstart⟩ := startsNumber_ofInt value
    have hread := readNumber_ofInt hvalue hrest
    rw [hdigits, List.cons_append] at hread ⊢
    rw [hdigits, List.length_cons] at hfuel
    obtain ⟨fuel, rfl⟩ : ∃ less, fuel = less + 1 := ⟨fuel - 1, by omega⟩
    rw [readValue_number hstart, hread]
  | @string depth text =>
    intro indent fuel rest hfuel _
    simp only [print, quoted, List.length_append, List.length_cons] at hfuel ⊢
    obtain ⟨fuel, rfl⟩ : ∃ less, fuel = less + 1 := ⟨fuel - 1, by omega⟩
    simp [readValue, skipSpace_cons, isSpace, readString_flatMap_escape]
  | array hitems ih => exact readsBack_array hitems ih
  | object hkeys _ ih => exact readsBack_object hkeys ih

/-- The text of a value that text carries at most as deep as reading goes is read as that
value. -/
theorem ofText?_pretty {value : Json} (h : Carried maxDepth value) :
    ofText? value.pretty = some value := by
  have hread := h.readsBack 0 (2 * (print 0 value).length + 2) [] (by omega) (by simp [EndsNumber])
  rw [List.append_nil] at hread
  simp [ofText?, pretty, hread, skipSpace]

end ThriftIdl.Json

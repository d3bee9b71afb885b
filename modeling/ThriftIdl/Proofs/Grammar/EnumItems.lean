import ThriftIdl.Proofs.Canonical.Members
import ThriftIdl.Proofs.Text.Literal

/-!
The items of an enum: names, each with a number after `=` or without one. The reader takes the
values one by one; an item without a number has the one after that of the item before it, or 0 if it
is the first.
-/

namespace ThriftIdl

/-- An item of an enum: a name, its line, and the number after `=` if there is one. -/
structure EnumItem where
  name : String
  line : Nat
  stated? : Option Int32

namespace EnumItem

/-- The number of the item, which is the next one if none is stated. -/
def number (next : Int) (item : EnumItem) : Int :=
  match item.stated? with
  | some stated => stated.toInt
  | none => next

/-- The numbers of the items, the next one for the first. -/
def numbers (next : Int) : List EnumItem → List Int
  | [] => []
  | item :: items => item.number next :: numbers (item.number next + 1) items

/-- Both items with their numbers: the second one either states its number, or the first has not the
greatest one of 32 bits. -/
def Follows (before after : EnumItem × Int) : Prop :=
  after.1.stated? = none → before.2 ≠ 2147483647

/-- The items as an enum may have them. -/
structure Sound (items : List EnumItem) : Prop where
  identifiers : ∀ item ∈ items, Identifier.isValid item.name = true
  names : (items.map (·.name)).Nodup
  numbers : (numbers 0 items).Nodup
  room : (items.zip (EnumItem.numbers 0 items)).IsChain Follows

/-- The values are those of the items, the next number for the first. -/
structure Gives (next : Int) (items : List EnumItem) (values : List EnumValue) : Prop where
  names : values.map (·.name) = items.map (·.name)
  numbers : values.map (·.value.toInt) = numbers next items
  explicit : values.map (·.explicit) = items.map (·.stated?.isSome)
  lines : values.map (·.line) = items.map (·.line)

variable {next : Int} {item : EnumItem} {items : List EnumItem} {value : EnumValue}
  {values : List EnumValue}

theorem gives_nil : Gives next [] values ↔ values = [] := by
  constructor
  · intro h
    exact List.map_eq_nil_iff.1 h.names
  · rintro rfl
    exact ⟨rfl, rfl, rfl, rfl⟩

theorem gives_cons :
    Gives next (item :: items) (value :: values) ↔
      (value.name = item.name ∧ value.value.toInt = item.number next ∧
        value.explicit = item.stated?.isSome ∧ value.line = item.line) ∧
      Gives (value.value.toInt + 1) items values := by
  constructor
  · rintro ⟨hnames, hnumbers, hexplicit, hlines⟩
    obtain ⟨hname, hnames⟩ := List.cons.inj hnames
    obtain ⟨hnumber, hnumbers⟩ := List.cons.inj hnumbers
    obtain ⟨hstated, hexplicit⟩ := List.cons.inj hexplicit
    obtain ⟨hline, hlines⟩ := List.cons.inj hlines
    rw [← hnumber] at hnumbers
    exact ⟨⟨hname, hnumber, hstated, hline⟩, hnames, hnumbers, hexplicit, hlines⟩
  · rintro ⟨⟨hname, hnumber, hstated, hline⟩, hnames, hnumbers, hexplicit, hlines⟩
    refine ⟨?_, ?_, ?_, ?_⟩
    · rw [List.map_cons, List.map_cons, hname, hnames]
    · rw [List.map_cons, EnumItem.numbers, hnumbers, hnumber]
    · rw [List.map_cons, List.map_cons, hstated, hexplicit]
    · rw [List.map_cons, List.map_cons, hline, hlines]

theorem Gives.exists_cons (h : Gives next (item :: items) values) :
    ∃ value rest, values = value :: rest := by
  cases values with
  | nil => exact absurd h.names (by simp)
  | cons value rest => exact ⟨value, rest, rfl⟩

/-- The first number is one of 32 bits. -/
def Fits (next : Int) (items : List EnumItem) : Prop :=
  ∀ item ∈ items.head?, item.stated? = none → -2147483648 ≤ next ∧ next ≤ 2147483647

theorem toInt_range (value : Int32) : -2147483648 ≤ value.toInt ∧ value.toInt ≤ 2147483647 := by
  have hlow := value.le_toInt
  have hhigh := value.toInt_lt
  omega

theorem number_of_stated {stated : Int32} (h : item.stated? = some stated) :
    item.number next = stated.toInt := by
  rw [number, h]

theorem number_of_unstated (h : item.stated? = none) : item.number next = next := by
  rw [number, h]

/-- A first number that fits is one of 32 bits. -/
theorem Fits.exists_toInt (h : Fits next (item :: items)) :
    ∃ value : Int32, value.toInt = item.number next := by
  cases hstated : item.stated? with
  | some stated => exact ⟨stated, (number_of_stated hstated).symm⟩
  | none =>
    obtain ⟨hlow, hhigh⟩ := h item rfl hstated
    refine ⟨Int32.ofInt next, ?_⟩
    rw [number_of_unstated hstated, Int32.toInt_ofInt_of_le (by omega) (by omega)]

/-- After a number of 32 bits the next one fits exactly if there is room for it. -/
theorem fits_iff_follows (value : Int32) :
    Fits (value.toInt + 1) items ↔
      ∀ after ∈ (items.zip (numbers (value.toInt + 1) items)).head?,
        Follows (item, value.toInt) after := by
  have hrange := toInt_range value
  cases items with
  | nil => simp [Fits]
  | cons other items =>
    simp only [Fits, List.head?_cons, Option.mem_some_iff, forall_eq', numbers,
      List.zip_cons_cons, Follows]
    refine imp_congr_right fun _ => ?_
    omega

/-- The items have values exactly if every number is one of 32 bits. -/
theorem exists_gives_iff :
    (∃ values, Gives next items values) ↔
      Fits next items ∧ (items.zip (numbers next items)).IsChain Follows := by
  induction items generalizing next with
  | nil => simp [gives_nil, Fits]
  | cons item items ih =>
    rw [numbers, List.zip_cons_cons, List.isChain_cons]
    constructor
    · rintro ⟨values, h⟩
      obtain ⟨value, rest, rfl⟩ := h.exists_cons
      obtain ⟨⟨-, hnumber, -, -⟩, hrest⟩ := gives_cons.1 h
      obtain ⟨hfits, hchain⟩ := ih.1 ⟨rest, hrest⟩
      rw [← hnumber]
      refine ⟨?_, (fits_iff_follows value.value).1 hfits, hchain⟩
      intro first hfirst hstated
      cases hfirst
      rw [number_of_unstated hstated] at hnumber
      rw [← hnumber]
      exact toInt_range value.value
    · rintro ⟨hfits, hhead, hchain⟩
      obtain ⟨value, hvalue⟩ := hfits.exists_toInt
      rw [← hvalue] at hhead hchain
      obtain ⟨rest, hrest⟩ := ih.2 ⟨(fits_iff_follows value).2 hhead, hchain⟩
      exact ⟨⟨item.name, value, item.stated?.isSome, item.line⟩ :: rest,
        gives_cons.2 ⟨⟨rfl, hvalue, rfl, rfl⟩, hrest⟩⟩

/-- The numbers of values tell them apart as the values themselves do. -/
theorem Gives.apart_iff (h : Gives next items values) :
    EnumValue.Apart values ↔ (items.map (·.name)).Nodup ∧ (EnumItem.numbers next items).Nodup := by
  have hinjective : Function.Injective Int32.toInt := fun _ _ => Int32.toInt_inj.1
  have hnumbers : EnumItem.numbers next items = (values.map (·.value)).map Int32.toInt := by
    rw [← h.numbers, List.map_map]
    rfl
  rw [EnumValue.apart_iff, ← h.names, hnumbers, List.nodup_map_iff hinjective]

/-- Items with values may stand in an enum if their names are identifiers and the values are
apart. -/
theorem Gives.sound_iff (h : Gives 0 items values) :
    Sound items ↔
      (∀ item ∈ items, Identifier.isValid item.name = true) ∧ EnumValue.Apart values := by
  rw [h.apart_iff]
  constructor
  · rintro ⟨hidentifiers, hnames, hnumbers, -⟩
    exact ⟨hidentifiers, hnames, hnumbers⟩
  · rintro ⟨hidentifiers, hnames, hnumbers⟩
    exact ⟨hidentifiers, hnames, hnumbers, (exists_gives_iff.1 ⟨values, h⟩).2⟩

/-- Items that may stand in an enum have values. -/
theorem Sound.exists_gives (h : Sound items) : ∃ values, Gives 0 items values := by
  refine exists_gives_iff.2 ⟨fun item _ _ => ?_, h.room⟩
  decide

end EnumItem

namespace Grammar

open Canonical EnumItem

/-- The tokens are those of the items, with separators between them. -/
inductive Spells : List EnumItem → List Token → Prop
  | nil : Spells [] []
  | separator {token items tokens} (hseparator : token.isSeparator = true)
      (h : Spells items tokens) : Spells items (token :: tokens)
  | unstated {name line items tokens} (h : Spells items tokens) :
      Spells (⟨name, line, none⟩ :: items) (⟨.word name, line⟩ :: tokens)
  | stated {name line items tokens} {equals literal : Token} {value : Int32}
      (hequals : equals.lexeme = .mark '=')
      (hliteral : Text.Denotes literal.text.toList value.toInt) (h : Spells items tokens) :
      Spells (⟨name, line, some value⟩ :: items)
        (⟨.word name, line⟩ :: equals :: literal :: tokens)

variable {taken values : List EnumValue} {value : EnumValue} {items : List EnumItem}
  {tokens rest : List Token}

/-- Items do not start with `=`. -/
theorem Spells.lacks_equals (h : Spells items tokens) : Lacks (.mark '=') tokens := by
  intro token htoken hequals
  cases h with
  | nil => cases htoken
  | separator hseparator h =>
    cases htoken
    simp [Token.isSeparator, hequals] at hseparator
  | unstated h =>
    cases htoken
    cases hequals
  | stated _ _ h =>
    cases htoken
    cases hequals

theorem nextNumber?_eq_some_iff {number : Int32} :
    nextNumber? taken = some number ↔ number.toInt = nextAfter taken := by
  refine ⟨fun h => ?_, nextNumber?_of_nextAfter⟩
  rw [nextNumber?] at h
  rw [nextAfter]
  cases hlast : taken.getLast? with
  | none =>
    rw [hlast] at h
    cases h
    rfl
  | some before =>
    rw [hlast] at h
    dsimp only at h ⊢
    split at h
    · cases h
    · next hmax =>
      cases h
      have hlow := before.value.le_toInt
      have hhigh := before.value.toInt_lt
      have hless : before.value.toInt ≠ 2147483647 := fun heq => hmax (Int32.toInt_inj.1 heq)
      have hone : (1 : Int32).toInt = 1 := rfl
      rw [Int32.toInt_add, hone, Int.bmod_eq_of_le (by omega) (by omega)]

/-- The number that is read is the one stated after `=`, or the next one. -/
theorem readNumber_eq_ok {name : Word} {number : Int32} {explicit : Bool}
    (h : readNumber taken name tokens = .ok ((number, explicit), rest)) :
    (∃ equals literal, tokens = equals :: literal :: rest ∧ equals.lexeme = .mark '=' ∧
      Text.Denotes literal.text.toList number.toInt ∧ explicit = true) ∨
    (tokens = rest ∧ number.toInt = nextAfter taken ∧ explicit = false) := by
  by_cases hlacks : Lacks (.mark '=') tokens
  · rw [readNumber, eat_of_lacks hlacks] at h
    dsimp only at h
    split at h
    · next next hnext =>
      cases h
      exact .inr ⟨rfl, nextNumber?_eq_some_iff.1 hnext, rfl⟩
    · cases h
  · rw [Lacks] at hlacks
    push Not at hlacks
    obtain ⟨equals, hhead, hequals⟩ := hlacks
    obtain ⟨after, rfl⟩ := List.head?_eq_some_iff.1 hhead
    rw [readNumber, eat, if_pos hequals] at h
    cases after with
    | nil => cases h
    | cons literal after =>
      dsimp only at h
      split at h
      · next stated hstated =>
        cases h
        exact .inl ⟨equals, literal, rfl, hequals, Text.literal32?_eq_some_iff.1 hstated, rfl⟩
      · cases h

theorem readNumber_of_stated {name : Word} {equals literal : Token} {number : Int32}
    (hequals : equals.lexeme = .mark '=')
    (hliteral : Text.Denotes literal.text.toList number.toInt) :
    readNumber taken name (equals :: literal :: rest) = .ok ((number, true), rest) := by
  rw [readNumber, eat, if_pos hequals]
  dsimp only
  rw [Text.literal32?_eq_some_iff.2 hliteral]

theorem readNumber_of_unstated {name : Word} {number : Int32} (hlacks : Lacks (.mark '=') rest)
    (hnumber : number.toInt = nextAfter taken) :
    readNumber taken name rest = .ok ((number, false), rest) := by
  rw [readNumber, eat_of_lacks hlacks]
  dsimp only
  rw [nextNumber?_of_nextAfter hnumber]

theorem readEnumValue_eq_ok_iff {token : Token} :
    readEnumValue taken token tokens = .ok (value, rest) ↔
      token = ⟨.word value.name, value.line⟩ ∧ Identifier.isValid value.name = true ∧
        readNumber taken ⟨value.name, value.line⟩ tokens =
          .ok ((value.value, value.explicit), rest) ∧
        checkNewValue taken value = .ok () := by
  constructor
  · intro h
    obtain ⟨lexeme, line⟩ := token
    rw [readEnumValue] at h
    split at h
    · next text hlexeme =>
      obtain ⟨_, hname, h⟩ := bind_eq_ok.1 h
      obtain ⟨⟨⟨number, explicit⟩, after⟩, hnumber, h⟩ := bind_eq_ok.1 h
      obtain ⟨_, hnew, h⟩ := bind_eq_ok.1 h
      obtain rfl : lexeme = .word text := hlexeme
      cases h
      exact ⟨rfl, checkIdentifier_eq_ok_iff.1 hname, hnumber, hnew⟩
    · cases h
  · rintro ⟨rfl, hname, hnumber, hnew⟩
    rw [readEnumValue]
    exact bind_eq_ok.2 ⟨_, checkIdentifier_eq_ok_iff.2 hname,
      bind_eq_ok.2 ⟨_, hnumber, bind_eq_ok.2 ⟨_, hnew, rfl⟩⟩⟩

/-- The values that are read are those of items that the tokens spell. -/
theorem readEnumValues_spells (h : readEnumValues taken tokens = .ok values) :
    ∃ items more, Spells items tokens ∧ (∀ item ∈ items, Identifier.isValid item.name = true) ∧
      Gives (nextAfter taken) items more ∧ values = taken ++ more := by
  fun_induction readEnumValues taken tokens with
  | case1 taken =>
    cases h
    exact ⟨[], [], .nil, by simp, gives_nil.2 rfl, (List.append_nil _).symm⟩
  | case2 taken token rest hseparator ih =>
    obtain ⟨items, more, hitems, hgives⟩ := ih h
    exact ⟨items, more, .separator hseparator hitems, hgives⟩
  | case3 => cases h
  | case4 taken token tokens _ value after hread _ ih =>
    obtain ⟨items, more, hitems, hnames, hmore, rfl⟩ := ih h
    obtain ⟨rfl, hname, hnumber, -⟩ := readEnumValue_eq_ok_iff.1 hread
    rw [nextAfter_append_singleton] at hmore
    rcases readNumber_eq_ok hnumber with ⟨equals, literal, rfl, hequals, hliteral, hexplicit⟩ |
      ⟨rfl, hnext, hexplicit⟩
    · refine ⟨⟨value.name, value.line, some value.value⟩ :: items, value :: more,
        .stated hequals hliteral hitems, List.forall_mem_cons.2 ⟨hname, hnames⟩, ?_, by simp⟩
      exact gives_cons.2 ⟨⟨rfl, rfl, hexplicit, rfl⟩, hmore⟩
    · refine ⟨⟨value.name, value.line, none⟩ :: items, value :: more, .unstated hitems,
        List.forall_mem_cons.2 ⟨hname, hnames⟩, ?_, by simp⟩
      exact gives_cons.2 ⟨⟨rfl, hnext, hexplicit, rfl⟩, hmore⟩

/-- One value is read, and the others after it. -/
theorem readEnumValues_word {more : List EnumValue}
    (hname : Identifier.isValid value.name = true)
    (hnumber : readNumber taken ⟨value.name, value.line⟩ tokens =
      .ok ((value.value, value.explicit), rest))
    (hapart : EnumValue.Apart (taken ++ value :: more)) :
    readEnumValues taken (⟨.word value.name, value.line⟩ :: tokens) =
      readEnumValues (taken ++ [value]) rest := by
  have hseparator : Token.isSeparator ⟨.word value.name, value.line⟩ = false := rfl
  rw [readEnumValues_cons, if_neg (by simp [hseparator]),
    readEnumValue_eq_ok_iff.2 ⟨rfl, hname, hnumber, checkNewValue_of_apart hapart⟩]
  rfl

/-- Items that give values apart from those before them are read. -/
theorem readEnumValues_of_spells {more : List EnumValue} (h : Spells items tokens)
    (hnames : ∀ item ∈ items, Identifier.isValid item.name = true)
    (hgives : Gives (nextAfter taken) items more) (hapart : EnumValue.Apart (taken ++ more)) :
    readEnumValues taken tokens = .ok (taken ++ more) := by
  induction h generalizing taken more with
  | nil => rw [readEnumValues, gives_nil.1 hgives, List.append_nil]
  | separator hseparator h ih =>
    rw [readEnumValues_cons, if_pos hseparator]
    exact ih hnames hgives hapart
  | @unstated _ _ _ tokens h ih =>
    obtain ⟨value, more, rfl⟩ := hgives.exists_cons
    obtain ⟨⟨rfl, hnumber, hexplicit, rfl⟩, hmore⟩ := gives_cons.1 hgives
    rw [List.forall_mem_cons] at hnames
    have hread : readNumber taken ⟨value.name, value.line⟩ tokens =
        .ok ((value.value, value.explicit), tokens) := by
      rw [hexplicit]
      exact readNumber_of_unstated h.lacks_equals hnumber
    rw [← nextAfter_append_singleton taken] at hmore
    rw [readEnumValues_word hnames.1 hread hapart, ih hnames.2 hmore (by simpa using hapart)]
    simp
  | @stated _ _ _ tokens equals literal _ hequals hliteral h ih =>
    obtain ⟨value, more, rfl⟩ := hgives.exists_cons
    obtain ⟨⟨rfl, hnumber, hexplicit, rfl⟩, hmore⟩ := gives_cons.1 hgives
    rw [List.forall_mem_cons] at hnames
    have hread : readNumber taken ⟨value.name, value.line⟩ (equals :: literal :: tokens) =
        .ok ((value.value, value.explicit), tokens) := by
      rw [hexplicit, Int32.toInt_inj.1 hnumber]
      exact readNumber_of_stated hequals hliteral
    rw [← nextAfter_append_singleton taken] at hmore
    rw [readEnumValues_word hnames.1 hread hapart, ih hnames.2 hmore (by simpa using hapart)]
    simp

/-- Tokens spell the items in one way only. -/
theorem Spells.unique {others : List EnumItem} (h : Spells items tokens)
    (hothers : Spells others tokens) : items = others := by
  induction h generalizing others with
  | nil =>
    cases hothers
    rfl
  | separator hseparator h ih =>
    cases hothers with
    | separator _ hothers => exact ih hothers
    | unstated => cases hseparator
    | stated => cases hseparator
  | unstated h ih =>
    cases hothers with
    | separator hseparator => cases hseparator
    | unstated hothers => rw [ih hothers]
    | stated hequals => exact absurd hequals (h.lacks_equals _ rfl)
  | stated hequals hliteral h ih =>
    cases hothers with
    | separator hseparator => cases hseparator
    | unstated hothers => exact absurd hequals (hothers.lacks_equals _ rfl)
    | stated _ hother hothers =>
      have hvalue := Text.literal32?_eq_some_iff.2 hliteral
      rw [Text.literal32?_eq_some_iff.2 hother] at hvalue
      rw [ih hothers, Option.some.inj hvalue]

theorem readEnumValues_eq_ok_iff :
    readEnumValues [] tokens = .ok values ↔
      ∃ items, Spells items tokens ∧ Sound items ∧ Gives 0 items values := by
  constructor
  · intro h
    have hapart := readEnumValues_apart ⟨by simp, by simp⟩ h
    obtain ⟨items, more, hitems, hnames, hgives, rfl⟩ := readEnumValues_spells h
    exact ⟨items, hitems, hgives.sound_iff.2 ⟨hnames, hapart⟩, hgives⟩
  · rintro ⟨items, hitems, hsound, hgives⟩
    obtain ⟨hnames, hapart⟩ := hgives.sound_iff.1 hsound
    exact readEnumValues_of_spells hitems hnames hgives hapart

/-- An enum's body is accepted exactly if it is items with separators between them, whose names are
identifiers, and no two of them share a name or a number; a number is stated as a literal of 32 bits,
or follows the one before it, which must not be the greatest. The members are then the items with
these numbers. -/
theorem readBody_enum (base? : Option String) (block : Block) :
    (∀ body, readBody .enum base? block = .ok body ↔
      ∃ items values, Spells items block.tokens ∧ Sound items ∧ Gives 0 items values ∧
        body = .enum values) ∧
    ((∃ body, readBody .enum base? block = .ok body) ↔
      ∃ items, Spells items block.tokens ∧ Sound items) ∧
    ∀ items others, Spells items block.tokens → Spells others block.tokens → items = others := by
  have hbody : ∀ body, readBody .enum base? block = .ok body ↔
      ∃ items values, Spells items block.tokens ∧ Sound items ∧ Gives 0 items values ∧
        body = .enum values := by
    intro body
    rw [readBody, bind_eq_ok]
    constructor
    · rintro ⟨values, hvalues, hbody⟩
      obtain ⟨items, hitems, hsound, hgives⟩ := readEnumValues_eq_ok_iff.1 hvalues
      exact ⟨items, values, hitems, hsound, hgives, (Except.ok.inj hbody).symm⟩
    · rintro ⟨items, values, hitems, hsound, hgives, rfl⟩
      exact ⟨values, readEnumValues_eq_ok_iff.2 ⟨items, hitems, hsound, hgives⟩, rfl⟩
  refine ⟨hbody, ?_, fun items others hitems hothers => hitems.unique hothers⟩
  constructor
  · rintro ⟨body, h⟩
    obtain ⟨items, values, hitems, hsound, -, -⟩ := (hbody body).1 h
    exact ⟨items, hitems, hsound⟩
  · rintro ⟨items, hitems, hsound⟩
    obtain ⟨values, hgives⟩ := hsound.exists_gives
    exact ⟨.enum values, (hbody _).2 ⟨items, values, hitems, hsound, hgives, rfl⟩⟩

end Grammar

end ThriftIdl

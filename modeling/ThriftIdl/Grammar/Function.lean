import ThriftIdl.Grammar.FieldList

/-!
The functions of services. In one service no two functions share a name, and a oneway function
neither returns nor throws.
-/

namespace ThriftIdl.Grammar

/-- The return type that a word states: `void` is none. -/
def returnTypeOf (word : String) : Option String := if word = "void" then none else some word

/-- The exceptions of a function, if `throws` follows, and the tokens after them. -/
def readThrows (last : Nat) (tokens : List Token) : Reading (List Field × List Token) :=
  match eat (.word "throws") tokens with
  | (false, rest) => .ok ([], rest)
  | (true, rest) =>
    match eat (.mark '(') rest with
    | (false, rest) => misshapen .function (lineOf last rest) .noExceptions
    | (true, rest) => readEntries true last (lineOf last rest) [] rest

def readParams (last : Nat) (function : Word) (tokens : List Token) :
    Reading (List Field × List Token) :=
  match eat (.mark '(') tokens with
  | (false, rest) => misshapen .function (lineOf last rest) (.noParameters function.text)
  | (true, rest) => readEntries false last (lineOf last rest) [] rest

def checkOneway (function : Function) : Reading Unit :=
  if function.oneway && (function.returnType?.isSome || !function.throws.isEmpty) then
    misshapen .function function.line (.onewayAnswers function.name)
  else .ok ()

/-- A function: `[oneway] <type|void> <name> ( <fields> ) [throws ( <fields> )]`. -/
def readFunction (last : Nat) (tokens : List Token) : Reading (Function × List Token) := do
  let line := lineOf last tokens
  let (oneway, rest) := eat (.word "oneway") tokens
  let (type, rest) ← expectWord .function .returnType last rest
  let (name, rest) ← expectWord .function .functionName last rest
  checkIdentifier name
  let (params, rest) ← readParams last name rest
  let (throws, rest) ← readThrows last rest
  let function : Function := ⟨name.text, returnTypeOf type.text, oneway, params, throws, line⟩
  checkOneway function
  .ok (function, rest)

/-- No function before it may have the function's name. -/
def checkNewFunction (taken : List Function) (function : Function) : Reading Unit :=
  match taken.find? (·.name == function.name) with
  | some earlier => .error ⟨function.line, .repeated (.functionName function.name) earlier.line⟩
  | none => .ok ()

theorem readThrows_suffix {last : Nat} {tokens rest : List Token} {throws : List Field}
    (h : readThrows last tokens = .ok (throws, rest)) : rest <:+ tokens := by
  unfold readThrows at h
  split at h
  · next heat =>
    cases h
    exact eat_suffix heat
  · next hword =>
    split at h
    · cases h
    · next hmark =>
      exact (readEntries_leaves h).suffix.trans ((eat_suffix hmark).trans (eat_suffix hword))

theorem readParams_leaves {last : Nat} {function : Word} {tokens rest : List Token}
    {params : List Field} (h : readParams last function tokens = .ok (params, rest)) :
    Leaves tokens rest := by
  unfold readParams at h
  split at h
  · cases h
  · next heat => exact (readEntries_leaves h).after_suffix (eat_suffix heat)

theorem readFunction_leaves {last : Nat} {tokens rest : List Token} {function : Function}
    (h : readFunction last tokens = .ok (function, rest)) : Leaves tokens rest := by
  obtain ⟨⟨type, afterType⟩, htype, h⟩ := bind_eq_ok.1 h
  obtain ⟨⟨name, afterName⟩, hname, h⟩ := bind_eq_ok.1 h
  obtain ⟨_, _, h⟩ := bind_eq_ok.1 h
  obtain ⟨⟨params, afterParams⟩, hparams, h⟩ := bind_eq_ok.1 h
  obtain ⟨⟨throws, after⟩, hthrows, h⟩ := bind_eq_ok.1 h
  obtain ⟨_, _, h⟩ := bind_eq_ok.1 h
  cases h
  have hname := ((expectWord_leaves htype).after_suffix (eat_suffix rfl)).of_suffix
    (expectWord_leaves hname).suffix
  exact (hname.of_suffix (readParams_leaves hparams).suffix).of_suffix (readThrows_suffix hthrows)

set_option linter.unusedVariables false in
/-- The functions of a service's body, after those already taken. -/
def readFunctions (last : Nat) (taken : List Function) (tokens : List Token) :
    Reading (List Function) :=
  match hskip : skipSeparators tokens with
  | [] => .ok taken
  | token :: rest =>
    match hread : readFunction last (token :: rest) with
    | .error violation => .error violation
    | .ok (function, after) =>
      match checkNewFunction taken function with
      | .error violation => .error violation
      | .ok () => readFunctions last (taken ++ [function]) after
termination_by tokens.length
decreasing_by
  exact
    ((readFunction_leaves hread).after_suffix (hskip ▸ skipSeparators_suffix tokens)).length_lt

end ThriftIdl.Grammar

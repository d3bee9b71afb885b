import ThriftIdl.Token

/-!
Scanning a text in pieces. What a text gives is told by the place at which scanning stands after its
first part: between lexemes, in a literal, or in a word. Outside literals and brackets a character
that ends words parts a text in two that are scanned on their own.
-/

namespace ThriftIdl.Lexeme

/-- Where scanning stands in a text. The characters of the lexeme begun are kept; after a backslash
in a literal the next character is escaped. -/
inductive Place where
  | between
  | literal (quote : Char) (escaped : Bool) (text : List Char)
  | word (opened text : List Char)

/-- The lexemes that the rest of a text gives from a place on. -/
def scanFrom : Place → List Char → List Lexeme
  | .between, rest => scan rest
  | .literal quote false text, rest =>
    literal (String.ofList (text ++ (splitLiteral quote rest).1)) ::
      scan (splitLiteral quote rest).2
  | .literal _ true text, [] => [literal (String.ofList text)]
  | .literal quote true text, c :: rest =>
    literal (String.ofList (text ++ c :: (splitLiteral quote rest).1)) ::
      scan (splitLiteral quote rest).2
  | .word opened text, rest =>
    word (String.ofList (text ++ (splitWord opened rest).1)) :: scan (splitWord opened rest).2

namespace Place

/-- The lexeme that a character is, or the place after the character that begins one. -/
def start (c : Char) : List Lexeme × Place :=
  if Text.isBlank c then ([], between)
  else if isMark c then ([mark c], between)
  else if Line.isQuote c then ([], literal c false [c])
  else ([], word (nest [] c) [c])

/-- The lexemes that one more character completes, and the place after it. -/
def advance : Place → Char → List Lexeme × Place
  | between, c => start c
  | literal quote true text, c => ([], literal quote false (text ++ [c]))
  | literal quote false text, c =>
    if c = '\\' then ([], literal quote true (text ++ [c]))
    else if c = quote then ([.literal (String.ofList (text ++ [c]))], between)
    else ([], literal quote false (text ++ [c]))
  | word opened text, c =>
    if opened.isEmpty && endsWord c then
      (.word (String.ofList text) :: (start c).1, (start c).2)
    else if Text.isBlank c && opened.head? == some '<' then ([], word (nest opened c) text)
    else ([], word (nest opened c) (text ++ [c]))

/-- The lexemes that a text completes, and the place after it. -/
def run (place : Place) : List Char → List Lexeme × Place
  | [] => ([], place)
  | c :: rest =>
    ((place.advance c).1 ++ ((place.advance c).2.run rest).1, ((place.advance c).2.run rest).2)

/-- The place is neither in a literal nor in brackets. -/
def Outside : Place → Prop
  | between => True
  | literal .. => False
  | word opened _ => opened = []

end Place

theorem scanFrom_start (c : Char) (rest : List Char) :
    scan (c :: rest) = (Place.start c).1 ++ scanFrom (Place.start c).2 rest := by
  rw [scan, Place.start]
  split
  · rfl
  · split
    · rfl
    · split
      · rfl
      · rfl

theorem splitLiteral_backslash (quote : Char) : splitLiteral quote ['\\'] = (['\\'], []) := by
  rw [splitLiteral]
  · split
    · rfl
    · rfl
  · simp

theorem splitLiteral_escape (quote c : Char) (rest : List Char) :
    splitLiteral quote ('\\' :: c :: rest) =
      ('\\' :: c :: (splitLiteral quote rest).1, (splitLiteral quote rest).2) := by
  rw [splitLiteral]

theorem splitLiteral_cons {c : Char} (h : c ≠ '\\') (quote : Char) (rest : List Char) :
    splitLiteral quote (c :: rest) =
      if c = quote then ([c], rest)
      else (c :: (splitLiteral quote rest).1, (splitLiteral quote rest).2) := by
  rw [splitLiteral]
  · intro d more hescape
    cases hescape
    exact absurd rfl h

theorem splitWord_cons (opened : List Char) (c : Char) (rest : List Char) :
    splitWord opened (c :: rest) =
      if opened.isEmpty && endsWord c then ([], c :: rest)
      else if Text.isBlank c && opened.head? == some '<' then splitWord (nest opened c) rest
      else (c :: (splitWord (nest opened c) rest).1, (splitWord (nest opened c) rest).2) := by
  rw [splitWord]

/-- Scanning goes on from the place after each character. -/
theorem scanFrom_cons (place : Place) (c : Char) (rest : List Char) :
    scanFrom place (c :: rest) = (place.advance c).1 ++ scanFrom (place.advance c).2 rest := by
  rcases place with _ | ⟨quote, _ | _, text⟩ | ⟨opened, text⟩
  · exact scanFrom_start c rest
  · rw [Place.advance]
    split
    · next hescape =>
      subst hescape
      cases rest with
      | nil => simp only [scanFrom, splitLiteral_backslash, List.nil_append, scan]
      | cons d rest =>
        simp only [scanFrom, splitLiteral_escape, List.append_assoc, List.nil_append,
          List.singleton_append]
    · next hescape =>
      rw [scanFrom, splitLiteral_cons hescape]
      split
      · rfl
      · simp only [scanFrom, List.append_assoc, List.nil_append, List.singleton_append]
  · simp only [Place.advance, scanFrom, List.append_assoc, List.nil_append, List.singleton_append]
  · rw [Place.advance, scanFrom, splitWord_cons]
    split
    · rw [List.append_nil, scanFrom_start]
      rfl
    · split
      · rfl
      · simp only [scanFrom, List.append_assoc, List.nil_append, List.singleton_append]

/-- Scanning goes on from the place after a part of the text. -/
theorem scanFrom_append (place : Place) (text rest : List Char) :
    scanFrom place (text ++ rest) = (place.run text).1 ++ scanFrom (place.run text).2 rest := by
  induction text generalizing place with
  | nil => rfl
  | cons c text ih => rw [List.cons_append, scanFrom_cons, ih, Place.run, List.append_assoc]

theorem run_append (place : Place) (text rest : List Char) :
    place.run (text ++ rest) =
      ((place.run text).1 ++ ((place.run text).2.run rest).1, ((place.run text).2.run rest).2) := by
  induction text generalizing place with
  | nil => rfl
  | cons c text ih =>
    simp only [List.cons_append, Place.run, ih, List.append_assoc]

/-- The lexemes that a text completes, scanned from its beginning. -/
def completed (text : List Char) : List Lexeme := (Place.between.run text).1

/-- The place after a text, scanned from its beginning. -/
def placeAfter (text : List Char) : Place := (Place.between.run text).2

theorem scan_append (text rest : List Char) :
    scan (text ++ rest) = completed text ++ scanFrom (placeAfter text) rest :=
  scanFrom_append .between text rest

theorem scan_eq_completed (text : List Char) :
    scan text = completed text ++ scanFrom (placeAfter text) [] := by
  have h := scan_append text []
  rwa [List.append_nil] at h

@[simp] theorem scan_nil : scan [] = [] := by rw [scan]

theorem scan_blank {c : Char} (h : Text.isBlank c = true) (rest : List Char) :
    scan (c :: rest) = scan rest := by
  rw [scan, if_pos h]

theorem scanFrom_of_outside {place : Place} (h : place.Outside) {c : Char} (hc : endsWord c = true)
    (rest : List Char) : scanFrom place (c :: rest) = scanFrom place [] ++ scan (c :: rest) := by
  rcases place with _ | _ | ⟨opened, text⟩
  · simp only [scanFrom, scan_nil, List.nil_append]
  · cases h
  · obtain rfl : opened = [] := h
    rw [scanFrom, splitWord_cons, if_pos (by simpa using hc)]
    simp only [scanFrom, splitWord, scan_nil, List.singleton_append]

/-- A character that ends words parts a text outside literals and brackets. -/
theorem scan_append_of_outside {text : List Char} (h : (placeAfter text).Outside) {c : Char}
    (hc : endsWord c = true) (rest : List Char) :
    scan (text ++ c :: rest) = scan text ++ scan (c :: rest) := by
  rw [scan_append, scan_eq_completed text, scanFrom_of_outside h hc, List.append_assoc]

/-- The characters that may be cleaned away at the end of a line. -/
def isLoose (c : Char) : Bool := Text.isBlank c || Line.isSeparator c

theorem nest_of_isLoose {c : Char} (h : isLoose c = true) (opened : List Char) :
    nest opened c = opened := by
  have hne : ∀ d, isLoose d = false → c ≠ d := by
    rintro d hd rfl
    rw [h] at hd
    cases hd
  have hopen : c ≠ '<' ∧ c ≠ '[' := ⟨hne '<' (by decide), hne '[' (by decide)⟩
  have hclose : c ≠ '>' ∧ c ≠ ']' := ⟨hne '>' (by decide), hne ']' (by decide)⟩
  cases opened with
  | nil => simp [nest, hopen]
  | cons top below => simp [nest, hopen, hclose]

namespace Place

/-- A literal is open by a quote. -/
def Quoted : Place → Prop
  | literal quote _ _ => Line.isQuote quote = true
  | _ => True

theorem quoted_start (c : Char) : (start c).2.Quoted := by
  rw [start]
  split
  · trivial
  · split
    · trivial
    · split
      · next hquote => exact hquote
      · trivial

theorem quoted_advance {place : Place} (h : place.Quoted) (c : Char) :
    (place.advance c).2.Quoted := by
  rcases place with _ | ⟨quote, _ | _, text⟩ | ⟨opened, text⟩
  · exact quoted_start c
  · rw [advance]
    split
    · exact h
    · split
      · trivial
      · exact h
  · exact h
  · rw [advance]
    split
    · exact quoted_start c
    · split
      · trivial
      · trivial

theorem quoted_run {place : Place} (h : place.Quoted) (text : List Char) :
    (place.run text).2.Quoted := by
  induction text generalizing place with
  | nil => exact h
  | cons c text ih => exact ih (quoted_advance h c)

theorem outside_of_advance {place : Place} (hquoted : place.Quoted) {c : Char}
    (hc : isLoose c = true) (h : (place.advance c).2.Outside) : place.Outside := by
  rcases place with _ | ⟨quote, _ | _, text⟩ | ⟨opened, text⟩
  · trivial
  · have hquote : c ≠ quote := by
      rintro rfl
      have hnot : ∀ d, Line.isQuote d = true → isLoose d = false := by
        intro d hd
        simp only [Line.isQuote, Bool.or_eq_true, beq_iff_eq] at hd
        rcases hd with rfl | rfl
        · decide
        · decide
      rw [hnot c hquoted] at hc
      cases hc
    rw [advance] at h
    split at h
    · exact h
    · exact h
  · exact h
  · cases opened with
    | nil => rfl
    | cons top below =>
      rw [advance, if_neg (by simp), nest_of_isLoose hc] at h
      split at h
      · exact h
      · exact h

/-- A place from which loose characters lead outside is outside. -/
theorem outside_of_run {place : Place} (hquoted : place.Quoted) {tail : List Char}
    (htail : ∀ c ∈ tail, isLoose c = true) (h : (place.run tail).2.Outside) : place.Outside := by
  induction tail generalizing place with
  | nil => exact h
  | cons c tail ih =>
    rw [List.forall_mem_cons] at htail
    exact outside_of_advance hquoted htail.1 (ih (quoted_advance hquoted c) htail.2 h)

end Place

theorem placeAfter_append (text rest : List Char) :
    placeAfter (text ++ rest) = ((placeAfter text).run rest).2 := by
  rw [placeAfter, run_append, placeAfter]

/-- What loose characters end stands outside if it does with them. -/
theorem outside_of_append {text tail : List Char} (htail : ∀ c ∈ tail, isLoose c = true)
    (h : (placeAfter (text ++ tail)).Outside) : (placeAfter text).Outside := by
  rw [placeAfter_append] at h
  exact Place.outside_of_run (@Place.quoted_run .between trivial text) htail h

theorem splitWord_ne_nil {rest : List Char} (hrest : scan rest ≠ []) (below : List Char) :
    (splitWord ('<' :: below) rest).1 ≠ [] := by
  induction rest with
  | nil => exact absurd scan_nil hrest
  | cons c rest ih =>
    rw [splitWord_cons, if_neg (by simp)]
    split
    · next hblank =>
      rw [Bool.and_eq_true] at hblank
      rw [scan_blank hblank.1] at hrest
      rw [nest_of_isLoose (by simp [isLoose, hblank.1])]
      exact ih hrest
    · exact List.cons_ne_nil _ _

theorem ofList_append_ne (text : List Char) {more : List Char} (hmore : more ≠ []) :
    String.ofList (text ++ more) ≠ String.ofList text := by
  intro heq
  rw [String.ofList_inj] at heq
  exact hmore (by simpa using heq)

theorem splitLiteral_ne_nil (quote c : Char) (rest : List Char) :
    (splitLiteral quote (c :: rest)).1 ≠ [] := by
  rw [splitLiteral.eq_def]
  split
  · simp_all
  · simp
  · split
    · simp
    · simp

/-- A blank stands outside literals and brackets if it parts its text in two that are scanned on
their own and the second is not blank. -/
theorem outside_of_parted {left right : List Char} (hright : scan right ≠ [])
    (h : scan (left ++ ' ' :: right) = scan left ++ scan right) : (placeAfter left).Outside := by
  rw [scan_append, scan_eq_completed left, List.append_assoc, List.append_cancel_left_eq] at h
  -- Inside a literal or brackets the lexeme begun in the first part would take in the blank, or what
  -- follows it, and so be longer than when the text ends there.
  generalize placeAfter left = place at h ⊢
  rcases place with _ | ⟨quote, _ | _, text⟩ | ⟨opened, text⟩
  · trivial
  · simp only [scanFrom, splitLiteral, List.append_nil, List.cons_append, List.cons.injEq,
      literal.injEq] at h
    exact absurd h.1 (ofList_append_ne text (splitLiteral_ne_nil quote ' ' right))
  · simp only [scanFrom, List.cons_append, List.cons.injEq, literal.injEq] at h
    exact absurd h.1 (ofList_append_ne text (List.cons_ne_nil _ _))
  · cases opened with
    | nil => rfl
    | cons top below =>
      have hne : (splitWord (top :: below) (' ' :: right)).1 ≠ [] := by
        rw [splitWord_cons, if_neg (by simp)]
        split
        · next hangle =>
          simp only [Bool.and_eq_true, List.head?_cons, beq_iff_eq, Option.some.injEq] at hangle
          rw [nest_of_isLoose (by decide), hangle.2]
          exact splitWord_ne_nil hright below
        · exact List.cons_ne_nil _ _
      simp only [scanFrom, splitWord, List.append_nil, List.cons_append, List.cons.injEq,
        word.injEq] at h
      exact absurd h.1 (ofList_append_ne text hne)

end ThriftIdl.Lexeme

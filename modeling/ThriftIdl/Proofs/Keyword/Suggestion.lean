import ThriftIdl.Keyword
import ThriftIdl.Proofs.Keyword.Edits

/-!
The keyword that a mistyped word was meant to be: the first of those that take the fewest edits, if
these are few enough for the length of the word.
-/

namespace ThriftIdl.Keyword

variable {candidates : List (String × Nat)} {best : String × Nat}

theorem cheapest_eq_none_iff : cheapest candidates = none ↔ candidates = [] := by
  cases candidates with
  | nil => simp [cheapest]
  | cons candidate rest =>
    refine iff_of_false ?_ (List.cons_ne_nil candidate rest)
    rw [cheapest]
    split
    · split
      · simp
      · simp
    · simp

/-- The cheapest candidate is the one that is cheaper than those before it and no dearer than those
after it. -/
theorem cheapest_eq_some_iff :
    cheapest candidates = some best ↔
      ∃ before after, candidates = before ++ best :: after ∧
        (∀ other ∈ before, best.2 < other.2) ∧ ∀ other ∈ after, best.2 ≤ other.2 := by
  induction candidates generalizing best with
  | nil => simp [cheapest]
  | cons candidate rest ih =>
    rw [cheapest]
    constructor
    · intro h
      cases hrest : cheapest rest with
      | none =>
        rw [hrest] at h
        cases h
        rw [cheapest_eq_none_iff.1 hrest]
        exact ⟨[], [], rfl, by simp, by simp⟩
      | some found =>
        obtain ⟨before, after, rfl, hbefore, hafter⟩ := ih.1 hrest
        simp only [hrest] at h
        split at h
        · next hless =>
          cases h
          exact ⟨candidate :: before, after, rfl, List.forall_mem_cons.2 ⟨hless, hbefore⟩, hafter⟩
        · next hless =>
          cases h
          refine ⟨[], _, rfl, by simp, ?_⟩
          have hfound : ∀ other ∈ before ++ found :: after, found.2 ≤ other.2 := by
            rw [List.forall_mem_append, List.forall_mem_cons]
            exact ⟨fun other hother => Nat.le_of_lt (hbefore other hother), Nat.le_refl _, hafter⟩
          exact fun other hother => Nat.le_trans (Nat.le_of_not_lt hless) (hfound other hother)
    · rintro ⟨before, after, heq, hbefore, hafter⟩
      cases before with
      | nil =>
        obtain ⟨rfl, rfl⟩ := List.cons.inj heq
        cases hrest : cheapest rest with
        | none => rfl
        | some found =>
          obtain ⟨before, after, rfl, -, -⟩ := ih.1 hrest
          exact if_neg (Nat.not_lt_of_le (hafter found (by simp)))
      | cons first before =>
        obtain ⟨rfl, hrest⟩ := List.cons.inj heq
        rw [List.forall_mem_cons] at hbefore
        rw [ih.2 ⟨before, after, hrest, hbefore.2, hafter⟩]
        exact if_pos hbefore.1

/-- The cheapest candidate within a limit is the cheapest of all, if that one is within the limit. -/
theorem cheapest_filter_eq_some_iff {limit : Nat} :
    cheapest (candidates.filter (·.2 ≤ limit)) = some best ↔
      best.2 ≤ limit ∧ cheapest candidates = some best := by
  rw [cheapest_eq_some_iff, cheapest_eq_some_iff]
  constructor
  · rintro ⟨before, after, hfilter, hbefore, hafter⟩
    obtain ⟨first, rest, rfl, rfl, hrest⟩ := List.filter_eq_append_iff.1 hfilter
    obtain ⟨skipped, last, rfl, hskipped, hbest, rfl⟩ := List.filter_eq_cons_iff.1 hrest
    have hwithin : best.2 ≤ limit := of_decide_eq_true hbest
    refine ⟨hwithin, first ++ skipped, last, by simp, ?_, ?_⟩
    · rw [List.forall_mem_append]
      constructor
      · intro other hother
        by_cases hlimit : other.2 ≤ limit
        · exact hbefore other (List.mem_filter.2 ⟨hother, decide_eq_true hlimit⟩)
        · omega
      · intro other hother
        have hlimit := hskipped other hother
        simp only [decide_eq_true_eq] at hlimit
        omega
    · intro other hother
      by_cases hlimit : other.2 ≤ limit
      · exact hafter other (List.mem_filter.2 ⟨hother, decide_eq_true hlimit⟩)
      · omega
  · rintro ⟨hwithin, before, after, rfl, hbefore, hafter⟩
    refine ⟨before.filter (·.2 ≤ limit), after.filter (·.2 ≤ limit), ?_, ?_, ?_⟩
    · rw [List.filter_append, List.filter_cons, if_pos (decide_eq_true hwithin)]
    · exact fun other hother => hbefore other (List.mem_filter.1 hother).1
    · exact fun other hother => hafter other (List.mem_filter.1 hother).1

/-- A lower case of a text, character by character. A capital sigma has two of them, the second one
for the end of a word. -/
inductive LowerCase : List Char → List Char → Prop
  | nil : LowerCase [] []
  | cons (c : Char) {word text : List Char} (h : LowerCase word text) :
      LowerCase (c :: word) (Text.lowerChar c ++ text)
  | finalSigma {word text : List Char} (h : LowerCase word text) :
      LowerCase ('Σ' :: word) ('ς' :: text)

theorem lowerCase_lower (word : List Char) : LowerCase word (Text.lower word) := by
  induction word with
  | nil => exact .nil
  | cons c word ih => exact .cons c ih

/-- Characters that are not in the goal are all alike to it. -/
theorem rowTail_of_not_mem {c d : Char} {goal : List Char} (hc : c ∉ goal) (hd : d ∉ goal)
    (left : Nat) (row : List Nat) : rowTail c left goal row = rowTail d left goal row := by
  induction goal generalizing left row with
  | nil => simp [rowTail]
  | cons k goal ih =>
    rw [List.mem_cons, not_or] at hc hd
    match row with
    | [] => simp [rowTail]
    | [_] => simp [rowTail]
    | diagonal :: above :: row => simp only [rowTail, if_neg hc.1, if_neg hd.1, ih hc.2 hd.2]

theorem nextRow_of_not_mem {c d : Char} {goal : List Char} (hc : c ∉ goal) (hd : d ∉ goal)
    (row : List Nat) : nextRow goal row c = nextRow goal row d := by
  cases row with
  | nil => rfl
  | cons diagonal row => simp only [nextRow, rowTail_of_not_mem hc hd]

/-- Which lower case a sigma has makes no difference to a goal without sigmas. -/
theorem distance_of_lowerCase {word text goal : List Char} (h : LowerCase word text)
    (hsigma : 'σ' ∉ goal) (hfinal : 'ς' ∉ goal) :
    distance text goal = distance (Text.lower word) goal := by
  have hfold : ∀ row, text.foldl (nextRow goal) row =
      (Text.lower word).foldl (nextRow goal) row := by
    induction h with
    | nil => exact fun _ => rfl
    | cons c _ ih =>
      intro row
      rw [Text.lower, List.flatMap_cons, List.foldl_append, List.foldl_append, ih]
      rfl
    | finalSigma _ ih =>
      intro row
      have hlower : Text.lowerChar 'Σ' = ['σ'] := by decide +kernel
      rw [Text.lower, List.flatMap_cons, hlower, List.singleton_append, List.foldl_cons,
        List.foldl_cons, nextRow_of_not_mem hfinal hsigma, ih]
      rfl
  rw [distance, distance, hfold]

/-- The keywords and how far the word is from each of them. -/
def costs (word : String) : List (String × Nat) :=
  all.map fun keyword => (keyword, distance (Text.lower word.toList) keyword.toList)

/-- The cost of a keyword is the distance to it from any lower case of the word. -/
theorem isDistance_keyword {word : String} {text : List Char} (h : LowerCase word.toList text) :
    ∀ keyword ∈ all,
      IsDistance text keyword.toList (distance (Text.lower word.toList) keyword.toList) := by
  intro keyword hkeyword
  have hplain : ∀ keyword ∈ all, 'σ' ∉ keyword.toList ∧ 'ς' ∉ keyword.toList := by
    decide +kernel
  obtain ⟨hsigma, hfinal⟩ := hplain keyword hkeyword
  rw [← distance_of_lowerCase h hsigma hfinal]
  exact isDistance_distance text keyword.toList

/-- The keyword is the first of the nearest ones: the text becomes it by as many edits and no fewer,
any keyword before it by more only, and any after it by no fewer. -/
structure Nearest (text : List Char) (keyword : String) (count : Nat) : Prop where
  least : IsLeast {n | Edits n text keyword.toList} count
  first : ∃ before after, all = before ++ keyword :: after ∧
    (∀ other ∈ before, ∀ n, Edits n text other.toList → count < n) ∧
    ∀ other ∈ after, ∀ n, Edits n text other.toList → count ≤ n

theorem cheapest_costs_iff {word : String} {text : List Char} (h : LowerCase word.toList text)
    {keyword : String} {count : Nat} :
    cheapest (costs word) = some (keyword, count) ↔ Nearest text keyword count := by
  have hdistance := isDistance_keyword h
  rw [cheapest_eq_some_iff]
  constructor
  · rintro ⟨before, after, hcosts, hbefore, hafter⟩
    obtain ⟨first, rest, hall, rfl, hrest⟩ := List.map_eq_append_iff.1 hcosts
    obtain ⟨_, last, rfl, hkeyword, rfl⟩ := List.map_eq_cons_iff.1 hrest
    cases hkeyword
    rw [hall, List.forall_mem_append, List.forall_mem_cons] at hdistance
    obtain ⟨hfirst, hleast, hlast⟩ := hdistance
    refine ⟨hleast, first, last, hall, fun other hother => ?_, fun other hother => ?_⟩
    · exact (hfirst other hother).forall_le_iff.2 (hbefore _ (List.mem_map_of_mem hother))
    · exact (hlast other hother).forall_le_iff.2 (hafter _ (List.mem_map_of_mem hother))
  · rintro ⟨hleast, before, after, hall, hbefore, hafter⟩
    rw [hall, List.forall_mem_append, List.forall_mem_cons] at hdistance
    obtain ⟨hfirst, hkeyword, hlast⟩ := hdistance
    obtain rfl : count = distance (Text.lower word.toList) keyword.toList :=
      Nat.le_antisymm (hleast.2 hkeyword.1) (hkeyword.2 hleast.1)
    refine ⟨_, _, by rw [costs, hall, List.map_append, List.map_cons], ?_, ?_⟩
    · rw [List.forall_mem_map]
      exact fun other hother => (hfirst other hother).forall_le_iff.1 (hbefore other hother)
    · rw [List.forall_mem_map]
      exact fun other hother => (hlast other hother).forall_le_iff.1 (hafter other hother)

/-- The edit distance of two texts is the least number of characters to insert, delete or replace in
one of them to get the other. The keyword suggested for a word is the first of those nearest to the
word in lower case, if it takes at most one edit, or two where the word has more than four
characters. Otherwise none is suggested. -/
theorem suggest_nearest :
    (∀ typed goal, IsLeast {n | Edits n typed goal} (distance typed goal)) ∧
    ∀ word : String, LowerCase word.toList (Text.lower word.toList) ∧
      ∀ text : List Char, LowerCase word.toList text →
        (∀ keyword, suggest word = some keyword ↔
          ∃ count ≤ if word.length ≤ 4 then 1 else 2, Nearest text keyword count) ∧
        (suggest word = none ↔ ∀ keyword ∈ all, ∀ n, Edits n text keyword.toList →
          (if word.length ≤ 4 then 1 else 2) < n) := by
  refine ⟨isDistance_distance, fun word => ⟨lowerCase_lower word.toList, fun text h => ?_⟩⟩
  have hsuggest : suggest word =
      (cheapest ((costs word).filter (·.2 ≤ if word.length ≤ 4 then 1 else 2))).map Prod.fst := rfl
  constructor
  · intro keyword
    simp only [hsuggest, Option.map_eq_some_iff, Prod.exists, exists_and_right, exists_eq_right,
      cheapest_filter_eq_some_iff, cheapest_costs_iff h]
  · rw [hsuggest, Option.map_eq_none_iff, cheapest_eq_none_iff, List.filter_eq_nil_iff, costs,
      List.forall_mem_map]
    refine forall₂_congr fun keyword hkeyword => ?_
    rw [decide_eq_true_eq, Nat.not_le]
    exact (isDistance_keyword h keyword hkeyword).forall_le_iff.symm

/-- A word with a final sigma is one edit away from a keyword. -/
theorem suggest_nearest_sigma :
    LowerCase "ENUΣ".toList ['e', 'n', 'u', 'ς'] ∧ suggest "ENUΣ" = some "enum" ∧
      ∃ count ≤ 1, Nearest ['e', 'n', 'u', 'ς'] "enum" count := by
  have hlower : LowerCase "ENUΣ".toList ['e', 'n', 'u', 'ς'] :=
    .cons 'E' (.cons 'N' (.cons 'U' (.finalSigma .nil)))
  have hsuggest : suggest "ENUΣ" = some "enum" := by decide +kernel
  exact ⟨hlower, hsuggest, (((suggest_nearest.2 "ENUΣ").2 _ hlower).1 "enum").1 hsuggest⟩

end ThriftIdl.Keyword

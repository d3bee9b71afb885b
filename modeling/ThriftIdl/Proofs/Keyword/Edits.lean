import Mathlib.Order.Bounds.Defs
import ThriftIdl.Keyword.Distance

/-!
The edit distance is the least number of edits. Edits may be made anywhere and in any order, but
those that turn one text into another can be arranged along both texts, from the front to the end,
with no more of them. So arranged, they end with the last characters of both texts as the row by row
computation has it.
-/

namespace ThriftIdl.Keyword

variable {c k : Char} {n count : Nat} {first next last text goal : List Char}

/-- One edit of a text: a character is inserted, deleted or replaced, at the front or behind
characters that stay. -/
inductive Edit : List Char → List Char → Prop
  | insert (c : Char) (text : List Char) : Edit text (c :: text)
  | delete (c : Char) (text : List Char) : Edit (c :: text) text
  | replace (c d : Char) (text : List Char) : Edit (c :: text) (d :: text)
  | behind (c : Char) {text other : List Char} (h : Edit text other) :
      Edit (c :: text) (c :: other)

/-- The first text becomes the last one by as many edits. -/
inductive Edits : Nat → List Char → List Char → Prop
  | none (text : List Char) : Edits 0 text text
  | more {n : Nat} {first next last : List Char} (h : Edit first next)
      (hrest : Edits n next last) : Edits (n + 1) first last

/-- So many edits turn the first text into the last one, and fewer do not. -/
def IsDistance (first last : List Char) (count : Nat) : Prop :=
  IsLeast {n | Edits n first last} count

theorem Edit.append (h : Edit first last) (rest : List Char) :
    Edit (first ++ rest) (last ++ rest) := by
  induction h with
  | insert c text => exact .insert c (text ++ rest)
  | delete c text => exact .delete c (text ++ rest)
  | replace c d text => exact .replace c d (text ++ rest)
  | behind c _ ih => exact .behind c ih

theorem Edit.prepend (h : Edit first last) (before : List Char) :
    Edit (before ++ first) (before ++ last) := by
  induction before with
  | nil => exact h
  | cons c before ih => exact .behind c ih

theorem Edit.reverse (h : Edit first last) : Edit first.reverse last.reverse := by
  induction h with
  | insert c text => simpa using (Edit.insert c []).prepend text.reverse
  | delete c text => simpa using (Edit.delete c []).prepend text.reverse
  | replace c d text => simpa using (Edit.replace c d []).prepend text.reverse
  | behind c _ ih => simpa using ih.append [c]

/-- What keeps single edits keeps their number. -/
theorem Edits.map {f : List Char → List Char}
    (hf : ∀ {first last}, Edit first last → Edit (f first) (f last)) (h : Edits n first last) :
    Edits n (f first) (f last) := by
  induction h with
  | none text => exact .none (f text)
  | more h _ ih => exact .more (hf h) ih

theorem edits_reverse_iff : Edits n first.reverse last.reverse ↔ Edits n first last := by
  constructor
  · intro h
    have hback := h.map Edit.reverse
    rwa [List.reverse_reverse, List.reverse_reverse] at hback
  · exact Edits.map Edit.reverse

theorem isDistance_reverse_iff :
    IsDistance first.reverse last.reverse count ↔ IsDistance first last count := by
  simp only [IsDistance, edits_reverse_iff]

/-- The first text becomes the last one by as many edits that are made along both texts: each
character of a text is kept, inserted, deleted or replaced once. -/
inductive Aligned : Nat → List Char → List Char → Prop
  | nil : Aligned 0 [] []
  | keep (c : Char) {n : Nat} {first last : List Char} (h : Aligned n first last) :
      Aligned n (c :: first) (c :: last)
  | insert (c : Char) {n : Nat} {first last : List Char} (h : Aligned n first last) :
      Aligned (n + 1) first (c :: last)
  | delete (c : Char) {n : Nat} {first last : List Char} (h : Aligned n first last) :
      Aligned (n + 1) (c :: first) last
  | replace (c d : Char) {n : Nat} {first last : List Char} (h : Aligned n first last) :
      Aligned (n + 1) (c :: first) (d :: last)

theorem aligned_self (text : List Char) : Aligned 0 text text := by
  induction text with
  | nil => exact .nil
  | cons c text ih => exact .keep c ih

theorem Aligned.symm (h : Aligned n first last) : Aligned n last first := by
  induction h with
  | nil => exact .nil
  | keep c _ ih => exact .keep c ih
  | insert c _ ih => exact .delete c ih
  | delete c _ ih => exact .insert c ih
  | replace c d _ ih => exact .replace d c ih

theorem Aligned.edits (h : Aligned n first last) : Edits n first last := by
  induction h with
  | nil => exact .none []
  | keep c _ ih => exact ih.map (.behind c)
  | insert c _ ih => exact .more (.insert c _) (ih.map (.behind c))
  | delete c _ ih => exact .more (.delete c _) ih
  | replace c d _ ih => exact .more (.replace c d _) (ih.map (.behind d))

/-- One edit before others that stand along the texts takes its place among them. -/
theorem Aligned.exists_of_edit (h : Aligned n next last) (hedit : Edit first next) :
    ∃ m ≤ n + 1, Aligned m first last := by
  induction h generalizing first with
  | nil =>
    cases hedit with
    | delete c => exact ⟨1, Nat.le_refl _, .delete c .nil⟩
  | @keep c n next last h ih =>
    cases hedit with
    | insert => exact ⟨n + 1, Nat.le_refl _, .insert c h⟩
    | delete b => exact ⟨n + 1, Nat.le_refl _, .delete b (.keep c h)⟩
    | replace b => exact ⟨n + 1, Nat.le_refl _, .replace b c h⟩
    | behind _ hedit =>
      obtain ⟨m, hm, hfirst⟩ := ih hedit
      exact ⟨m, hm, .keep c hfirst⟩
  | @insert c n next last h ih =>
    obtain ⟨m, hm, hfirst⟩ := ih hedit
    exact ⟨m + 1, Nat.succ_le_succ hm, .insert c hfirst⟩
  | @delete c n next last h ih =>
    cases hedit with
    | insert => exact ⟨n, by omega, h⟩
    | delete b => exact ⟨n + 2, Nat.le_refl _, .delete b (.delete c h)⟩
    | replace b => exact ⟨n + 1, by omega, .delete b h⟩
    | behind _ hedit =>
      obtain ⟨m, hm, hfirst⟩ := ih hedit
      exact ⟨m + 1, Nat.succ_le_succ hm, .delete c hfirst⟩
  | @replace c d n next last h ih =>
    cases hedit with
    | insert => exact ⟨n + 1, by omega, .insert d h⟩
    | delete b => exact ⟨n + 2, Nat.le_refl _, .delete b (.replace c d h)⟩
    | replace b => exact ⟨n + 1, by omega, .replace b d h⟩
    | behind _ hedit =>
      obtain ⟨m, hm, hfirst⟩ := ih hedit
      exact ⟨m + 1, Nat.succ_le_succ hm, .replace c d hfirst⟩

/-- Edits in any order can be arranged along the texts. -/
theorem Edits.exists_aligned (h : Edits n first last) : ∃ m ≤ n, Aligned m first last := by
  induction h with
  | none text => exact ⟨0, Nat.le_refl _, aligned_self text⟩
  | more hedit _ ih =>
    obtain ⟨m, hm, hnext⟩ := ih
    obtain ⟨l, hl, hfirst⟩ := hnext.exists_of_edit hedit
    exact ⟨l, by omega, hfirst⟩

/-- A common first character can be kept. -/
theorem Aligned.exists_of_cons (h : Aligned n (c :: first) (c :: last)) :
    ∃ m ≤ n, Aligned m first last := by
  cases h with
  | keep _ h => exact ⟨n, Nat.le_refl _, h⟩
  | insert _ h => exact h.exists_of_edit (.insert c first)
  | delete _ h =>
    obtain ⟨m, hm, hsymm⟩ := h.symm.exists_of_edit (.insert c last)
    exact ⟨m, hm, hsymm.symm⟩
  | @replace _ _ n _ _ h => exact ⟨n, Nat.le_succ n, h⟩

theorem isDistance_iff_aligned :
    IsDistance first last count ↔
      Aligned count first last ∧ ∀ n, Aligned n first last → count ≤ n := by
  constructor
  · rintro ⟨hedits, hleast⟩
    obtain ⟨m, hm, haligned⟩ := Edits.exists_aligned hedits
    have hle : count ≤ m := hleast haligned.edits
    obtain rfl : m = count := Nat.le_antisymm hm hle
    exact ⟨haligned, fun n hn => hleast hn.edits⟩
  · rintro ⟨haligned, hleast⟩
    refine ⟨haligned.edits, ?_⟩
    intro n hn
    obtain ⟨m, hm, hfirst⟩ := Edits.exists_aligned hn
    exact Nat.le_trans (hleast m hfirst) hm

/-- A bound that all numbers of edits keep to is one that the distance keeps to. -/
theorem IsDistance.forall_le_iff (h : IsDistance first last count) {bound : Nat} :
    (∀ n, Edits n first last → bound ≤ n) ↔ bound ≤ count := by
  constructor
  · intro hbound
    exact hbound count h.1
  · intro hbound n hn
    exact Nat.le_trans hbound (h.2 hn)

theorem isDistance_nil (text : List Char) : IsDistance [] text text.length := by
  rw [isDistance_iff_aligned]
  induction text with
  | nil => exact ⟨.nil, fun _ _ => Nat.zero_le _⟩
  | cons c text ih =>
    refine ⟨.insert c ih.1, ?_⟩
    intro n hn
    cases hn with
    | insert _ hn => exact Nat.succ_le_succ (ih.2 _ hn)

theorem isDistance_cons_nil (h : IsDistance first [] count) :
    IsDistance (c :: first) [] (count + 1) := by
  rw [isDistance_iff_aligned] at h ⊢
  refine ⟨.delete c h.1, ?_⟩
  intro n hn
  cases hn with
  | delete _ hn => exact Nat.succ_le_succ (h.2 _ hn)

/-- Behind a common first character the distance is the same. -/
theorem isDistance_cons_self (h : IsDistance first last count) :
    IsDistance (c :: first) (c :: last) count := by
  rw [isDistance_iff_aligned] at h ⊢
  refine ⟨.keep c h.1, ?_⟩
  intro n hn
  obtain ⟨m, hm, hfirst⟩ := hn.exists_of_cons
  exact Nat.le_trans (h.2 m hfirst) hm

/-- First characters that differ take one edit more than the shortest way on. -/
theorem isDistance_cons_of_ne {diagonal above left : Nat} (hne : c ≠ k)
    (hdiagonal : IsDistance first last diagonal) (habove : IsDistance first (k :: last) above)
    (hleft : IsDistance (c :: first) last left) :
    IsDistance (c :: first) (k :: last) (1 + min (min diagonal above) left) := by
  rw [isDistance_iff_aligned] at hdiagonal habove hleft ⊢
  constructor
  · have hmin : min (min diagonal above) left = diagonal ∨
        min (min diagonal above) left = above ∨ min (min diagonal above) left = left := by omega
    rw [Nat.add_comm]
    rcases hmin with h | h | h
    · rw [h]
      exact .replace c k hdiagonal.1
    · rw [h]
      exact .delete c habove.1
    · rw [h]
      exact .insert k hleft.1
  · intro n hn
    cases hn with
    | keep => exact absurd rfl hne
    | insert _ hn =>
      have hle := hleft.2 _ hn
      omega
    | delete _ hn =>
      have hle := habove.2 _ hn
      omega
    | replace _ _ hn =>
      have hle := hdiagonal.2 _ hn
      omega

/-- The entries are the distances from what was read to the beginnings of the goal, from the one
that is done on. What was read and what is done stand here last character first. -/
inductive IsRow (read : List Char) : List Char → List Char → List Nat → Prop
  | nil {done : List Char} {entry : Nat} (h : IsDistance read done entry) :
      IsRow read done [] [entry]
  | cons {done goal : List Char} {k : Char} {entry : Nat} {row : List Nat}
      (h : IsDistance read done entry) (hrow : IsRow read (k :: done) goal row) :
      IsRow read done (k :: goal) (entry :: row)

variable {read done : List Char} {row : List Nat}

theorem IsRow.exists_cons (h : IsRow read done goal row) :
    ∃ entry rest, row = entry :: rest ∧ IsDistance read done entry := by
  cases h with
  | nil h => exact ⟨_, _, rfl, h⟩
  | cons h _ => exact ⟨_, _, rfl, h⟩

theorem isRow_range (done goal : List Char) :
    IsRow [] done goal (List.range' done.length (goal.length + 1)) := by
  induction goal generalizing done with
  | nil => exact .nil (isDistance_nil done)
  | cons k goal ih => exact .cons (isDistance_nil done) (ih (k :: done))

/-- Each entry of the row for one more character follows from the one to its left and the two above
it. -/
theorem IsRow.rowTail {left : Nat} (h : IsRow read done goal row)
    (hleft : IsDistance (c :: read) done left) :
    IsRow (c :: read) done goal (left :: rowTail c left goal row) := by
  induction h generalizing left with
  | nil => exact .nil hleft
  | @cons done goal k diagonal row hdiagonal hrow ih =>
    obtain ⟨above, rest, rfl, habove⟩ := hrow.exists_cons
    refine .cons hleft (ih ?_)
    split
    · next heq =>
      subst heq
      exact isDistance_cons_self hdiagonal
    · next hne => exact isDistance_cons_of_ne hne hdiagonal habove hleft

theorem IsRow.nextRow (h : IsRow read [] goal row) (c : Char) :
    IsRow (c :: read) [] goal (nextRow goal row c) := by
  obtain ⟨entry, rest, rfl, hentry⟩ := h.exists_cons
  exact h.rowTail (isDistance_cons_nil hentry)

theorem IsRow.foldl (h : IsRow read [] goal row) (typed : List Char) :
    IsRow (typed.reverse ++ read) [] goal (typed.foldl (Keyword.nextRow goal) row) := by
  induction typed generalizing read row with
  | nil => exact h
  | cons c typed ih =>
    rw [List.reverse_cons, List.append_assoc]
    exact ih (h.nextRow c)

theorem IsRow.getLastD (h : IsRow read done goal row) (default : Nat) :
    IsDistance read (goal.reverse ++ done) (row.getLastD default) := by
  induction h generalizing default with
  | nil h => exact h
  | @cons done goal k entry row _ _ ih =>
    rw [List.reverse_cons, List.append_assoc, List.getLastD_cons]
    exact ih entry

/-- The edit distance is the least number of insertions, deletions and replacements of a character
that turn the one text into the other. -/
theorem isDistance_distance (typed goal : List Char) :
    IsDistance typed goal (distance typed goal) := by
  have hrow := ((isRow_range [] goal).foldl typed).getLastD 0
  rw [List.append_nil, List.append_nil, List.length_nil, ← List.range_eq_range'] at hrow
  exact isDistance_reverse_iff.1 hrow

end ThriftIdl.Keyword

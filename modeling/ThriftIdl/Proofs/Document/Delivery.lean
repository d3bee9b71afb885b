import ThriftIdl.Proofs.Cursor
import ThriftIdl.Proofs.Document.Directives
import ThriftIdl.Proofs.Document.Reading

/-!
Reading a header from a cursor that delivers the lines one by one. The header takes the longest run
of directives, and the line that ends it is taken back for the definitions.
-/

namespace ThriftIdl

theorem Table.keys_foldl_insert {α : Type} (pairs : List (String × α)) (table : Table α) :
    (pairs.foldl (fun table pair => table.insert pair.1 pair.2) table).keys =
      table.keys ++ ((keys pairs).filter fun key => decide (key ∉ table.keys)).eraseDups := by
  induction pairs generalizing table with
  | nil => simp [keys]
  | cons pair pairs ih =>
    have hkeys := keys_insert pair.1 pair.2 table
    have hcons : keys (pair :: pairs) = pair.1 :: keys pairs := rfl
    rw [List.foldl_cons, ih, hcons]
    by_cases hknown : pair.1 ∈ table.keys
    · rw [hkeys, if_pos hknown, List.filter_cons_of_neg (by simpa using hknown)]
    · rw [hkeys, if_neg hknown, List.filter_cons_of_pos (by simpa using hknown),
        List.eraseDups_cons, List.filter_filter, List.append_assoc, List.singleton_append]
      congr 3
      apply List.filter_congr
      intro key _
      by_cases hkey : key = pair.1
      · simp [hkey]
      · simp [hkey]

namespace Header

/-- The entry that a namespace with exactly three fields makes. -/
def setting? : List String → Option (String × String)
  | [word, target, name] =>
    if word = Directive.namespaceOf.word then some (target, name) else none
  | _ => none

namespace Progress

/-- What the cursor gives is what the lines still to come hold, and the lines after it are left. -/
structure Reads (document : String) (before after : Progress) (header : Header) : Prop where
  namespaces : after.namespaces = header.namespaces
  warnings : after.warnings = before.warnings ++ header.notices.map (Notice.warning document)
  rest : after.cursor.rest = header.rest

theorem run_reads (document : String) (progress : Progress) :
    Reads document progress (progress.run document)
      (read progress.namespaces progress.cursor.rest) := by
  fun_induction run document progress with
  | case1 progress cursor hline =>
    obtain ⟨hnil, hafter⟩ := Line.Cursor.rest_of_ended hline
    rw [hnil]
    exact ⟨rfl, (List.append_nil _).symm, hafter⟩
  | case2 progress line cursor hline heffect =>
    obtain ⟨hrest, -, hback⟩ := Line.Cursor.rest_of_delivered hline
    rw [hrest, read]
    simp only [heffect]
    exact ⟨rfl, (List.append_nil _).symm, hback.trans hrest⟩
  | case3 progress line cursor hline target name heffect ih =>
    rw [(Line.Cursor.rest_of_delivered hline).1, read]
    simp only [heffect]
    exact ⟨ih.namespaces, ih.warnings, ih.rest⟩
  | case4 progress line cursor hline remark heffect notice ih =>
    obtain ⟨hrest, hnumber, -⟩ := Line.Cursor.rest_of_delivered hline
    rw [hrest, read]
    simp only [heffect]
    refine ⟨ih.namespaces, ?_, ih.rest⟩
    have hnotice : notice = ⟨line.number, remark⟩ := by rw [← hnumber]
    rw [ih.warnings, hnotice, List.append_assoc, List.singleton_append, List.map_cons]

end Progress

theorem setting?_eq_none_of_remark? {fields : List String} {remark : Remark}
    (h : remark? fields = some remark) : setting? fields = none := by
  rw [setting?.eq_def]
  split
  · next word target name =>
    by_cases hword : word = Directive.namespaceOf.word
    · subst hword
      cases h
    · rw [if_neg hword]
  · rfl

/-- A header sets the entries of its directives with exactly three fields. -/
theorem settings_eq_filterMap (lines : List Line) :
    settings lines = (directives lines).filterMap fun line => setting? (Text.fieldsOf line.text) := by
  induction lines with
  | nil => rfl
  | cons line lines ih =>
    rw [directives, List.takeWhile_cons]
    rcases effect?_cases (Text.fieldsOf line.text) with
      ⟨heffect, hnone⟩ | ⟨target, name, heffect, hfields⟩ | ⟨remark, heffect, hsome, hremark⟩
    · simp [settings, heffect, hnone]
    · have hdirective : directive? (Text.fieldsOf line.text) = some .namespaceOf := by
        rw [hfields]
        rfl
      have hsetting : setting? (Text.fieldsOf line.text) = some (target, name) := by
        rw [hfields]
        rfl
      rw [hdirective, Option.isSome_some, if_pos rfl, List.filterMap_cons, hsetting]
      simp only [settings, heffect]
      exact congrArg _ ih
    · rw [if_pos hsome, List.filterMap_cons, setting?_eq_none_of_remark? hremark]
      simp only [settings, heffect]
      exact ih

/-- A header leaves the lines from the first that is no directive. -/
theorem rest_read (table : Table String) (lines : List Line) :
    (read table lines).rest = lines.drop (directives lines).length := by
  induction lines generalizing table with
  | nil => rfl
  | cons line lines ih =>
    rw [directives, List.takeWhile_cons]
    rcases effect?_cases (Text.fieldsOf line.text) with
      ⟨heffect, hnone⟩ | ⟨target, name, heffect, hfields⟩ | ⟨remark, heffect, hsome, hremark⟩
    · simp [read, heffect, hnone]
    · have hdirective : directive? (Text.fieldsOf line.text) = some .namespaceOf := by
        rw [hfields]
        rfl
      rw [hdirective, Option.isSome_some, if_pos rfl, List.length_cons, List.drop_succ_cons]
      simp only [read, heffect]
      exact ih _
    · rw [if_pos hsome, List.length_cons, List.drop_succ_cons]
      simp only [read, heffect]
      exact ih table

/-- The directives at the start of a document's lines set the namespaces and give the warnings, and
the cursor delivers the line after them next. Of the entries for one target the last counts, in the
place of the first. -/
theorem run_directives (document : String) (raws : List String) (table : Table String)
    (warnings : List Warning) :
    let lines := Line.meaningful raws
    let header := read table lines
    let after := Progress.run document ⟨.start raws, table, warnings⟩
    let entries := (directives lines).filterMap fun line => setting? (Text.fieldsOf line.text)
    (after.namespaces = header.namespaces ∧
      after.namespaces = entries.foldl (fun table entry => table.insert entry.1 entry.2) table ∧
      after.namespaces.keys = table.keys ++
        ((entries.map Prod.fst).filter fun target => decide (target ∉ table.keys)).eraseDups ∧
      ∀ target, after.namespaces.get? target =
        (Table.get? entries.reverse target).or (table.get? target)) ∧
    (after.warnings = warnings ++ header.notices.map (Notice.warning document) ∧
      after.warnings = warnings ++ (directives lines).filterMap fun line =>
        (remark? (Text.fieldsOf line.text)).map fun remark =>
          ⟨⟨document, line.number⟩, remark.text, none⟩) ∧
    (after.cursor.rest = header.rest ∧
      after.cursor.advance.1 = (lines.drop (directives lines).length).head?) := by
  intro lines header after entries
  have hreads := Progress.run_reads document ⟨.start raws, table, warnings⟩
  rw [Line.Cursor.rest_start] at hreads
  have hnamespaces : after.namespaces =
      entries.foldl (fun table entry => table.insert entry.1 entry.2) table := by
    rw [hreads.namespaces, read_namespaces, settings_eq_filterMap]
  refine ⟨⟨hreads.namespaces, hnamespaces, ?_, ?_⟩, ⟨hreads.warnings, ?_⟩, hreads.rest, ?_⟩
  · rw [hnamespaces, Table.keys_foldl_insert]
    rfl
  · rw [hnamespaces]
    exact Table.get?_foldl_insert entries table
  · rw [hreads.warnings, notices_read, List.map_filterMap]
    simp only [Option.map_map]
    rfl
  · rw [Line.Cursor.advance_fst, hreads.rest, rest_read]

end Header

end ThriftIdl

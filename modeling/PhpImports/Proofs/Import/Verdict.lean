import PhpImports.Proofs.Import.Entry
import Mathlib.Data.List.DropRight

/-!
# What becomes of each import

When a statement ends, every import that was read is judged by the imports before it: it is kept,
kept with a warning that its alias was given before, or left out with a warning (`Judged`). So none
of them is lost without one, and they add up: each is an entry of its own or is reported for not
being one (`ofDraft_keeps_or_reports`).
-/

namespace PhpImports

/-- How many of the diagnostics have this code. -/
def countCode (code : String) (ds : List Diagnostic) : Nat :=
  ds.countP (·.code = some code.toList)

theorem countCode_append (code : String) (ds es : List Diagnostic) :
    countCode code (ds ++ es) = countCode code ds + countCode code es :=
  List.countP_append

namespace ImportClause

/-- What is reported of an import when those of `before` have been judged. -/
inductive Judged (before : List ImportClause) (i : ImportClause) : List Diagnostic → Prop
  | trailing (ends : i.name.getLast? = some separator) :
      Judged before i [(Cause.trailingSeparator i.name).report i.span]
  | nameless (ends : i.name.getLast? ≠ some separator) (nameless : i.localName = []) :
      Judged before i [(Cause.emptyAlias i.name).report i.span]
  | again (kept : i.IsKept) (earlier : ∃ j ∈ before, j.IsKept ∧ j.localName = i.localName) :
      Judged before i [(Cause.duplicateAlias i.localName).report i.span]
  | first (kept : i.IsKept) (new : ∀ j ∈ before, j.IsKept → j.localName ≠ i.localName) :
      Judged before i []

/-- What is reported of imports that are judged one after another. -/
inductive JudgedAll : List ImportClause → List Diagnostic → Prop
  | nil : JudgedAll [] []
  | concat {before : List ImportClause} {i : ImportClause} {ds es : List Diagnostic}
      (earlier : JudgedAll before ds) (last : i.Judged before es) :
      JudgedAll (before ++ [i]) (ds ++ es)

variable {i : ImportClause}

theorem localName_eq (h : i.asName = none) : i.localName = i.name.rtakeWhile (· ≠ separator) := by
  rw [localName, h]
  rfl

/-- An import without an alias of its own goes by the longest end of its name that has no separator
in it. -/
theorem localName_longest (h : i.asName = none) : i.localName <:+ i.name ∧
    separator ∉ i.localName ∧ ∀ t, t <:+ i.name → separator ∉ t → t <:+ i.localName := by
  rw [localName_eq h]
  refine ⟨List.rtakeWhile_suffix _ _, ?_, ?_⟩
  · intro hmem
    simpa using List.mem_rtakeWhile_imp hmem
  · rintro t ⟨front, hfront⟩ hplain
    rw [← hfront, List.rtakeWhile, List.reverse_append, List.takeWhile_append_of_pos,
      List.reverse_append, List.reverse_reverse]
    · exact List.suffix_append _ t
    · intro c hc
      rw [decide_eq_true_iff]
      rintro rfl
      exact hplain (List.mem_reverse.1 hc)

end ImportClause

open ImportClause

/-- The aliases of the imports that are kept. -/
def keptAliases (is : List ImportClause) : List Text :=
  (keptEntries is).map (·.1)

theorem keptAliases_concat (is : List ImportClause) (i : ImportClause) :
    keptAliases (is ++ [i]) = keptAliases is ++ if i.IsKept then [i.localName] else [] := by
  rw [keptAliases, keptEntries_append, List.map_append]
  by_cases h : i.IsKept
  · simp [keptAliases, keptEntries, ImportClause.entry, h]
  · simp [keptAliases, keptEntries, h]

theorem mem_keptAliases {is : List ImportClause} {key : Text} :
    key ∈ keptAliases is ↔ ∃ j ∈ is, j.IsKept ∧ j.localName = key := by
  simp [keptAliases, keptEntries, ImportClause.entry, and_assoc]

theorem eraseDups_concat (l : List Text) (key : Text) :
    (l ++ [key]).eraseDups = l.eraseDups ++ if key ∈ l then [] else [key] := by
  rw [List.eraseDups_append, List.removeAll, List.filter_singleton]
  by_cases h : key ∈ l
  · simp [h]
  · simp [h, List.eraseDups_cons]

/-- A kept import adds its alias if no kept one before it has it. -/
theorem aliases_insert_kept {t : AliasTable} {is : List ImportClause} {i : ImportClause}
    (h : t.aliases = (keptAliases is).eraseDups) (hkept : i.IsKept) :
    (t.insert i.localName i.name).aliases = (keptAliases (is ++ [i])).eraseDups := by
  rw [keptAliases_concat, if_pos hkept, eraseDups_concat, AliasTable.aliases_insert, h]
  by_cases hmem : i.localName ∈ keptAliases is
  · rw [if_pos (List.mem_eraseDups.2 hmem), if_pos hmem, List.append_nil]
  · rw [if_neg fun hdup => hmem (List.mem_eraseDups.1 hdup), if_neg hmem]

theorem AliasTable.length_insert (t : AliasTable) (key name : Text) :
    (t.insert key name).entries.length =
      t.entries.length + if t.contains key then 0 else 1 := by
  have hlength : ∀ t : AliasTable, t.entries.length = t.aliases.length := fun t =>
    (List.length_map _).symm
  rw [hlength, hlength, AliasTable.aliases_insert]
  by_cases hmem : key ∈ t.aliases
  · rw [if_pos hmem, if_pos (AliasTable.contains_iff.2 hmem), Nat.add_zero]
  · rw [if_neg hmem, if_neg fun hin => hmem (AliasTable.contains_iff.1 hin), List.length_append,
      List.length_singleton]

namespace Statement

/-- The statement has taken in the imports, and `ds` is what was reported of them. -/
structure Accounts (is : List ImportClause) (ds : List Diagnostic) (s : Statement) : Prop where
  judged : JudgedAll is ds
  /-- Each alias stands where it was first kept. -/
  aliases : s.table.aliases = (keptAliases is).eraseDups
  total : is.length = s.table.entries.length + countCode "W0003" ds + countCode "W0004" ds +
    countCode "W0005" ds

variable {is : List ImportClause} {ds : List Diagnostic} {s : Statement}

theorem Accounts.contains_iff (h : s.Accounts is ds) {key : Text} :
    s.table.contains key = true ↔ ∃ j ∈ is, j.IsKept ∧ j.localName = key := by
  rw [AliasTable.contains_iff, h.aliases, List.mem_eraseDups, mem_keptAliases]

/-- An import that is left out. -/
theorem Accounts.skip (h : s.Accounts is ds) {i : ImportClause} {d : Diagnostic} {s' : Statement}
    (htable : s'.table = s.table) (hleft : ¬ i.IsKept) (hjudged : i.Judged is [d])
    (hcode : d.code = some "W0003".toList ∨ d.code = some "W0005".toList) :
    s'.Accounts (is ++ [i]) (ds ++ [d]) where
  judged := .concat h.judged hjudged
  aliases := by rw [htable, h.aliases, keptAliases_concat, if_neg hleft, List.append_nil]
  total := by
    rw [htable, List.length_append, h.total, countCode_append, countCode_append, countCode_append]
    rcases hcode with hcode | hcode
    · simp [countCode, hcode]
      omega
    · simp [countCode, hcode]
      omega

/-- An import that is kept. -/
theorem Accounts.keep (h : s.Accounts is ds) {i : ImportClause} (hkept : i.IsKept) :
    ∃ es, (s.enter i).diagnostics = s.diagnostics ++ es ∧
      (s.enter i).Accounts (is ++ [i]) (ds ++ es) := by
  have htable : (s.enter i).table = s.table.insert i.localName i.name := by
    rw [table_enter, if_pos hkept]
  have haliases := aliases_insert_kept h.aliases hkept
  have hlength := s.table.length_insert i.localName i.name
  rw [← htable] at haliases hlength
  have hfound : (s.enter i).diagnostics = s.diagnostics ++
      if s.table.contains i.localName then [(Cause.duplicateAlias i.localName).report i.span]
      else [] := by
    rw [enter, if_neg hkept.1, if_neg hkept.2]
  refine ⟨_, hfound, ?_⟩
  by_cases hearlier : ∃ j ∈ is, j.IsKept ∧ j.localName = i.localName
  · rw [if_pos (h.contains_iff.2 hearlier)] at hlength ⊢
    refine ⟨.concat h.judged (.again hkept hearlier), haliases, ?_⟩
    rw [hlength, List.length_append, h.total, countCode_append, countCode_append, countCode_append]
    simp [countCode, Cause.report, Cause.code?]
    omega
  · have hnew : i.Judged is [] := .first hkept fun j hj hkeep hsame =>
      hearlier ⟨j, hj, hkeep, hsame⟩
    have hjudged := JudgedAll.concat h.judged hnew
    rw [if_neg fun hin => hearlier (h.contains_iff.1 hin)] at hlength ⊢
    rw [List.append_nil] at hjudged ⊢
    refine ⟨hjudged, haliases, ?_⟩
    rw [hlength, List.length_append, List.length_singleton, h.total]
    omega

theorem Accounts.enter (h : s.Accounts is ds) (i : ImportClause) :
    ∃ es, (s.enter i).diagnostics = s.diagnostics ++ es ∧
      (s.enter i).Accounts (is ++ [i]) (ds ++ es) := by
  by_cases hkept : i.IsKept
  · exact h.keep hkept
  · have htable : (s.enter i).table = s.table := by rw [table_enter, if_neg hkept]
    by_cases hends : i.name.getLast? = some separator
    · refine ⟨_, ?_, h.skip htable hkept (.trailing hends) (Or.inr rfl)⟩
      rw [Statement.enter, if_pos hends]
    · have hnameless : i.localName = [] := by
        by_contra hname
        exact hkept ⟨hends, hname⟩
      refine ⟨_, ?_, h.skip htable hkept (.nameless hends hnameless) (Or.inl rfl)⟩
      rw [Statement.enter, if_neg hends, if_pos hnameless]

/-- A statement without a table yet accounts for all imports that it takes in. -/
theorem accounts_foldl_enter (hs : s.table = .empty) (is : List ImportClause) :
    ∃ ds, (is.foldl enter s).diagnostics = s.diagnostics ++ ds ∧
      (is.foldl enter s).Accounts is ds := by
  induction is using List.reverseRecOn with
  | nil =>
    refine ⟨[], (List.append_nil _).symm, .nil, ?_, ?_⟩
    · rw [List.foldl_nil, hs]
      rfl
    · rw [List.foldl_nil, hs]
      rfl
  | append_singleton is i ih =>
    obtain ⟨ds, hfound, haccounts⟩ := ih
    obtain ⟨es, hadded, haccounts⟩ := haccounts.enter i
    rw [List.foldl_append, List.foldl_cons, List.foldl_nil]
    exact ⟨ds ++ es, by rw [hadded, hfound, List.append_assoc], haccounts⟩

/-- A statement that ends keeps every import or reports why not. What was reported before stays, a
missing semicolon is reported next, and then the imports are judged in order. The entries are those
of the imports that are kept: an alias stands where it was first kept, with the name it was last
kept with. So the imports add up, and one that is kept without an alias of its own goes by the
longest end of its name that has no separator in it. -/
theorem ofDraft_keeps_or_reports (d : Draft) (terminated : Bool) (fileEnd : Span) :
    let s := ofDraft d terminated fileEnd
    ∃ ending added, s.diagnostics = d.diagnostics ++ ending ++ added ∧
      ending = (if terminated then [] else [d.unterminated fileEnd]) ∧
      ending.map (·.code) = (if terminated then [] else [some "W0001".toList]) ∧
      JudgedAll d.imports added ∧
      s.table.aliases = (keptAliases d.imports).eraseDups ∧
      (∀ key name, (key, name) ∈ s.table.entries ↔
        ∃ i : ImportClause, i.DecidesIn d.imports ∧ i.entry = (key, name)) ∧
      d.imports.length = s.table.entries.length + countCode "W0003" added +
        countCode "W0004" added + countCode "W0005" added ∧
      ∀ i ∈ d.imports, i.IsKept → i.asName = none → i.localName <:+ i.name ∧
        separator ∉ i.localName ∧ ∀ t, t <:+ i.name → separator ∉ t → t <:+ i.localName := by
  intro s
  let start : Statement :=
    { terminated
      diagnostics := if terminated then d.diagnostics
        else d.diagnostics ++ [d.unterminated fileEnd] }
  obtain ⟨added, hfound, haccounts⟩ := accounts_foldl_enter (s := start) rfl d.imports
  have hstart : start.diagnostics =
      d.diagnostics ++ if terminated then [] else [d.unterminated fileEnd] := by
    cases terminated with
    | true => exact (List.append_nil _).symm
    | false => rfl
  rw [hstart] at hfound
  refine ⟨_, added, hfound, rfl, ?_, haccounts.judged, haccounts.aliases, ?_, haccounts.total, ?_⟩
  · cases terminated with
    | true => rfl
    | false => rfl
  · intro key name
    rw [AliasTable.mem_entries_iff, table_ofDraft, AliasTable.name?_foldl_insert,
      AliasTable.name?_empty, Option.or_none, lookup_keptEntries_eq_some]
  · intro i _ _ hplain
    exact localName_longest hplain

end Statement
end PhpImports

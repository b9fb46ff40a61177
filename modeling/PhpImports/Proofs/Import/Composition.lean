import PhpImports.Proofs.Import.Entry

/-!
# Imports of token lists in a row

A statement that ends with a semicolon depends on nothing behind it. So a list whose statements all
end can be read apart from what follows it, and the tables are laid over each other
(`ofTokens_append`). What an alias stands for is settled by the last statement that has it, which
needs no statement to end (`ofTokens_composes`).
-/

namespace PhpImports

namespace AliasTable

theorem empty_overwrite (t : AliasTable) : empty.overwrite t = t := by
  apply ext_of_name?
  · rw [aliases_overwrite, show empty.aliases = [] from rfl]
    simp
  · intro key
    rw [name?_overwrite, name?_empty, Option.or_none]

theorem overwrite_assoc (t u v : AliasTable) :
    (t.overwrite u).overwrite v = t.overwrite (u.overwrite v) :=
  (overwrite_foldl_insert v.entries t u).symm

theorem name?_eq_none_iff {t : AliasTable} {key : Text} : t.name? key = none ↔ key ∉ t.aliases := by
  constructor
  · intro hnone hmem
    obtain ⟨e, he, rfl⟩ := List.mem_map.1 hmem
    have hname : t.name? e.1 = some e.2 := mem_entries_iff.1 he
    rw [hnone] at hname
    cases hname
  · intro hmem
    cases hname : t.name? key with
    | none => rfl
    | some name => exact absurd (List.mem_map_of_mem (mem_entries_iff.2 hname)) hmem

end AliasTable

/-- Behind every word that starts a statement stands a semicolon somewhere. -/
def StatementsEnd (ts : List Token) : Prop :=
  ∀ t rest, t :: rest <:+ ts → t.kind = .kwUse → ∃ u ∈ rest, u.kind = .semicolon

theorem StatementsEnd.tail {t : Token} {ts : List Token} (h : StatementsEnd (t :: ts)) :
    StatementsEnd ts :=
  fun u rest hsuffix => h u rest (hsuffix.trans (List.suffix_cons t ts))

/-- Nothing behind the semicolon that ends a draft is read. -/
theorem Draft.readAll_append {ps : List Piece} (h : ∃ p ∈ ps, p.kind = .semicolon) (d : Draft)
    (qs : List Piece) :
    d.readAll (ps ++ qs) = d.readAll ps ∧ (d.readAll ps).2 = true := by
  induction ps generalizing d with
  | nil =>
    obtain ⟨p, hp, -⟩ := h
    cases hp
  | cons p ps ih =>
    rw [List.cons_append, readAll, readAll]
    by_cases hp : p.kind = .semicolon
    · rw [if_pos hp, if_pos hp]
      exact ⟨rfl, rfl⟩
    · rw [if_neg hp, if_neg hp]
      apply ih
      obtain ⟨q, hq, hkind⟩ := h
      rcases List.mem_cons.1 hq with rfl | hq
      · exact absurd hkind hp
      · exact ⟨q, hq, hkind⟩

namespace Statement

/-- The end of the file counts only in a statement that has no semicolon. -/
theorem read_append {ps : List Piece} (h : ∃ p ∈ ps, p.kind = .semicolon) (qs : List Piece) :
    read (ps ++ qs) = read ps := by
  obtain ⟨hdraft, hended⟩ := Draft.readAll_append h {} qs
  have hread : ∀ rs : List Piece, (({} : Draft).readAll rs).2 = true →
      read rs = ofDraft (({} : Draft).readAll rs).1 true Span.zero := by
    intro rs hrs
    rw [read]
    simp only [hrs]
    rfl
  rw [hread ps hended, hread (ps ++ qs) (hdraft ▸ hended), hdraft]

theorem readAll_append (source : Text) {A : List Token} (h : StatementsEnd A) (B : List Token) :
    readAll ((A ++ B).map (·.inText source)) =
      readAll (A.map (·.inText source)) ++ readAll (B.map (·.inText source)) := by
  induction A with
  | nil => rfl
  | cons t A ih =>
    have hrest := ih h.tail
    have hkind : (t.inText source).kind = t.kind := rfl
    rw [List.cons_append, List.map_cons, List.map_cons, readAll, readAll, hrest, hkind]
    by_cases ht : t.kind = .kwUse
    · have hends : ∃ p ∈ A.map (·.inText source), p.kind = .semicolon := by
        obtain ⟨u, hu, hkind⟩ := h t A (List.suffix_refl _) ht
        exact ⟨u.inText source, List.mem_map_of_mem hu, hkind⟩
      rw [if_pos ht, if_pos ht, List.map_append, read_append hends]
      rfl
    · rw [if_neg ht, if_neg ht]

end Statement

namespace FileImports

theorem foldl_overwrite (ss : List Statement) (t : AliasTable) :
    ss.foldl (fun t s => t.overwrite s.table) t =
      t.overwrite (ss.foldl (fun t s => t.overwrite s.table) .empty) := by
  induction ss generalizing t with
  | nil => rfl
  | cons s ss ih =>
    rw [List.foldl_cons, List.foldl_cons, ih, ih (AliasTable.empty.overwrite s.table),
      AliasTable.empty_overwrite, AliasTable.overwrite_assoc]

/-- One file laid over another. -/
def append (f g : FileImports) : FileImports where
  table := f.table.overwrite g.table
  diagnostics := f.diagnostics ++ g.diagnostics
  statementCount := f.statementCount + g.statementCount

theorem ofStatements_append (ss ss' : List Statement) :
    ofStatements (ss ++ ss') = (ofStatements ss).append (ofStatements ss') := by
  simp only [ofStatements, append, List.foldl_append, List.flatMap_append, List.length_append]
  rw [foldl_overwrite ss']

theorem ofTokens_append (source : Text) {A : List Token} (h : StatementsEnd A) (B : List Token) :
    ofTokens source (A ++ B) = (ofTokens source A).append (ofTokens source B) := by
  rw [ofTokens, ofPieces, Statement.readAll_append source h, ofStatements_append]
  rfl

theorem ofPieces_cons (p : Piece) (ps : List Piece) :
    (ofPieces (p :: ps)).table =
      if p.kind = .kwUse then (Statement.read ps).table.overwrite (ofPieces ps).table
      else (ofPieces ps).table := by
  rw [ofPieces, Statement.readAll]
  by_cases hp : p.kind = .kwUse
  · rw [if_pos hp, if_pos hp, ofStatements]
    simp only [List.foldl_cons]
    rw [foldl_overwrite, AliasTable.empty_overwrite]
    rfl
  · rw [if_neg hp, if_neg hp]
    rfl

theorem ofTokens_cons (source : Text) (t : Token) (ts : List Token) :
    (ofTokens source (t :: ts)).table =
      if t.kind = .kwUse then
        (Statement.read (ts.map (·.inText source))).table.overwrite (ofTokens source ts).table
      else (ofTokens source ts).table :=
  ofPieces_cons (t.inText source) (ts.map fun u : Token => u.inText source)

/-- An alias is missing exactly if no statement has it. -/
theorem name?_ofTokens_eq_none_iff {source : Text} {ts : List Token} {key : Text} :
    (ofTokens source ts).table.name? key = none ↔ ∀ t rest, t :: rest <:+ ts → t.kind = .kwUse →
      (Statement.read (rest.map (·.inText source))).table.name? key = none := by
  induction ts with
  | nil => simp [ofTokens, ofPieces, Statement.readAll, ofStatements, AliasTable.name?_empty]
  | cons u ts ih =>
    rw [ofTokens_cons]
    simp only [List.suffix_cons_iff, List.cons.injEq]
    constructor
    · intro h t rest hsuffix ht
      rcases hsuffix with ⟨rfl, rfl⟩ | hsuffix
      · rw [if_pos ht, AliasTable.name?_overwrite, Option.or_eq_none_iff] at h
        exact h.2
      · refine ih.1 ?_ t rest hsuffix ht
        split at h
        · rw [AliasTable.name?_overwrite, Option.or_eq_none_iff] at h
          exact h.1
        · exact h
    · intro h
      have hrest := ih.2 fun t rest hsuffix => h t rest (Or.inr hsuffix)
      split
      · next hu =>
        rw [AliasTable.name?_overwrite, Option.or_eq_none_iff]
        exact ⟨hrest, h u ts (Or.inl ⟨rfl, rfl⟩) hu⟩
      · exact hrest

/-- The last statement that has an alias decides its name. -/
theorem name?_ofTokens_eq_some_iff {source : Text} {ts : List Token} {key name : Text} :
    (ofTokens source ts).table.name? key = some name ↔
      ∃ t rest, t :: rest <:+ ts ∧ t.kind = .kwUse ∧
        (Statement.read (rest.map (·.inText source))).table.name? key = some name ∧
        (ofTokens source rest).table.name? key = none := by
  induction ts with
  | nil => simp [ofTokens, ofPieces, Statement.readAll, ofStatements, AliasTable.name?_empty]
  | cons u ts ih =>
    rw [ofTokens_cons]
    simp only [List.suffix_cons_iff, List.cons.injEq]
    constructor
    · intro h
      by_cases hu : u.kind = .kwUse
      · rw [if_pos hu, AliasTable.name?_overwrite, Option.or_eq_some_iff] at h
        rcases h with h | ⟨hnone, h⟩
        · obtain ⟨t, rest, hsuffix, hrest⟩ := ih.1 h
          exact ⟨t, rest, Or.inr hsuffix, hrest⟩
        · exact ⟨u, ts, Or.inl ⟨rfl, rfl⟩, hu, h, hnone⟩
      · rw [if_neg hu] at h
        obtain ⟨t, rest, hsuffix, hrest⟩ := ih.1 h
        exact ⟨t, rest, Or.inr hsuffix, hrest⟩
    · rintro ⟨t, rest, ⟨rfl, rfl⟩ | hsuffix, ht, hsome, hnone⟩
      · rw [if_pos ht, AliasTable.name?_overwrite, Option.or_eq_some_iff]
        exact Or.inr ⟨hnone, hsome⟩
      · have hlater := ih.2 ⟨t, rest, hsuffix, ht, hsome, hnone⟩
        split
        · rw [AliasTable.name?_overwrite, Option.or_eq_some_iff]
          exact Or.inl hlater
        · exact hlater

/-- A list whose statements end is read apart from what follows it: the tables are laid over each
other, the diagnostics follow each other and the statements add up. In any list the last statement
that has an alias decides its name, and an alias that no statement has is missing. -/
theorem ofTokens_composes (source : Text) :
    (∀ A B : List Token, StatementsEnd A →
      (ofTokens source (A ++ B)).table =
          (ofTokens source A).table.overwrite (ofTokens source B).table ∧
        (ofTokens source (A ++ B)).diagnostics =
          (ofTokens source A).diagnostics ++ (ofTokens source B).diagnostics ∧
        (ofTokens source (A ++ B)).statementCount =
          (ofTokens source A).statementCount + (ofTokens source B).statementCount) ∧
    ∀ (ts : List Token) (key : Text),
      (∀ name, (ofTokens source ts).table.name? key = some name ↔
        ∃ t rest, t :: rest <:+ ts ∧ t.kind = .kwUse ∧
          (Statement.read (rest.map (·.inText source))).table.name? key = some name ∧
          ∀ u later, u :: later <:+ rest → u.kind = .kwUse →
            key ∉ (Statement.read (later.map (·.inText source))).table.aliases) ∧
      (key ∉ (ofTokens source ts).table.aliases ↔ ∀ t rest, t :: rest <:+ ts → t.kind = .kwUse →
        key ∉ (Statement.read (rest.map (·.inText source))).table.aliases) := by
  constructor
  · intro A B hA
    rw [ofTokens_append source hA]
    exact ⟨rfl, rfl, rfl⟩
  · intro ts key
    constructor
    · intro name
      rw [name?_ofTokens_eq_some_iff]
      simp only [← AliasTable.name?_eq_none_iff, name?_ofTokens_eq_none_iff]
    · rw [← AliasTable.name?_eq_none_iff, name?_ofTokens_eq_none_iff]
      simp only [AliasTable.name?_eq_none_iff]

/-- The second of two statements takes the alias of the first. -/
theorem ofTokens_composes_later :
    let source := "use A;use B\\A;".toList
    let A : List Token := [⟨.kwUse, ⟨0, 3⟩⟩, ⟨.ident, ⟨4, 5⟩⟩, ⟨.semicolon, ⟨5, 6⟩⟩]
    let B : List Token := [⟨.kwUse, ⟨6, 9⟩⟩, ⟨.nameQualified, ⟨10, 13⟩⟩, ⟨.semicolon, ⟨13, 14⟩⟩]
    StatementsEnd A ∧
      (ofTokens source A).table.entries = [(['A'], ['\\', 'A'])] ∧
      (ofTokens source (A ++ B)).table =
        (ofTokens source A).table.overwrite (ofTokens source B).table ∧
      (ofTokens source (A ++ B)).table.name? ['A'] = some ['\\', 'B', '\\', 'A'] := by
  intro source A B
  have hends : StatementsEnd A := by
    intro t rest hsuffix ht
    simp only [A, List.suffix_cons_iff, List.cons.injEq] at hsuffix
    rcases hsuffix with ⟨rfl, rfl⟩ | ⟨rfl, rfl⟩ | ⟨rfl, rfl⟩ | hnil
    · exact ⟨⟨.semicolon, ⟨5, 6⟩⟩, by simp, rfl⟩
    · cases ht
    · cases ht
    · cases List.suffix_nil.1 hnil
  exact ⟨hends, by decide, ((ofTokens_composes source).1 A B hends).1, by decide⟩

end FileImports
end PhpImports

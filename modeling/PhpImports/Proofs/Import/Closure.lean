import PhpImports.Proofs.Import.Composition
import PhpImports.Proofs.Import.Erase
import PhpImports.Proofs.Import.Parts
import PhpImports.Report

/-!
# Closures that capture variables

The word that starts an import statement also stands before the variables that a closure captures,
and there it starts a statement like any other. The variables give that statement nothing, so it is
the one that would be read from the body of the closure. What the body gives it are names: a part of
the body without a name of its own gives nothing, and an alias that the body does give makes no
difference if a later statement has it, or if it stands for the same name without the closure. In
all other cases the imports of the file are different (`table_without_closure_word`).
-/

namespace PhpImports

/-- Variables in parentheses, with commas and `&` signs between them in any order. -/
inductive CaptureList : List Piece → Prop
  | intro {layout captured : List Piece} {opening closing : Piece}
      (lays : ∀ p ∈ layout, p.kind.isTrivia = true) (opens : opening.kind = .lParen)
      (captures : ∀ p ∈ captured, p.kind.isTrivia = true ∨ p.kind = .variable ∨ p.kind = .comma ∨
        p.kind = .punct ∧ p.text = ['&'])
      (closes : closing.kind = .rParen) :
    CaptureList (layout ++ opening :: (captured ++ [closing]))

theorem TokenKind.isRead_of_isTrivia {k : TokenKind} (h : k.isTrivia = true) :
    k.isRead = false := by
  cases k with
  | whitespace | comment | docComment => rfl
  | _ => cases h

/-- A draft only takes notice of the commas in a capture list. -/
theorem CaptureList.kind_mem {list : List Piece} (h : CaptureList list) {p : Piece}
    (hp : p ∈ list) : p.kind = .comma ∨ p.kind.isRead = false ∧ p.kind ≠ .kwUse := by
  have htrivia : p.kind.isTrivia = true → p.kind.isRead = false ∧ p.kind ≠ .kwUse := fun h =>
    ⟨TokenKind.isRead_of_isTrivia h, TokenKind.ne_of_isTrivia h rfl⟩
  obtain ⟨lays, opens, captures, closes⟩ := h
  simp only [List.mem_append, List.mem_cons, List.not_mem_nil, or_false] at hp
  rcases hp with hp | rfl | hp | rfl
  · exact Or.inr (htrivia (lays p hp))
  · rw [opens]
    decide
  · rcases captures p hp with h | h | h | ⟨h, -⟩
    · exact Or.inr (htrivia h)
    · rw [h]
      decide
    · exact Or.inl h
    · rw [h]
      decide
  · rw [closes]
    decide

/-- Where no name was read yet, commas and what a draft takes no notice of change nothing. -/
theorem Draft.readAll_skip {list : List Piece}
    (h : ∀ p ∈ list, p.kind = .comma ∨ p.kind.isRead = false) (ps : List Piece) :
    ({} : Draft).readAll (list ++ ps) = ({} : Draft).readAll ps := by
  induction list with
  | nil => rfl
  | cons p list ih =>
    obtain ⟨hp, hlist⟩ := List.forall_mem_cons.1 h
    have hsame : ({} : Draft).next p = {} ∧ p.kind ≠ .semicolon := by
      rcases hp with hp | hp
      · rw [next, hp]
        exact ⟨rfl, by decide⟩
      · exact ⟨next_of_not_isRead hp {}, TokenKind.ne_semicolon_of_not_isRead hp⟩
    rw [List.cons_append, readAll, if_neg hsame.2, hsame.1, ih hlist]

namespace SpelledDraft

/-- Once an alias is announced, a brace takes away the name and nothing gives a new one. -/
theorem own_foldl_next_alias {part : List Piece}
    (h : ∀ p ∈ part, p.kind ≠ .comma ∧ p.kind ≠ .semicolon) {t : SpelledDraft}
    (halias : t.spelling.asParts ≠ none)
    (hown : t.spelling.own = [] ∨ ∃ p ∈ part, p.kind = .lBrace) :
    (part.foldl next t).spelling.own = [] := by
  induction part generalizing t with
  | nil => simpa using hown
  | cons p part ih =>
    obtain ⟨hp, hpart⟩ := List.forall_mem_cons.1 h
    obtain ⟨read, hread⟩ := Option.ne_none_iff_exists'.1 halias
    have hnext : (t.next p).spelling.asParts ≠ none ∧
        (p.kind = .lBrace → (t.next p).spelling.own = []) ∧
        (t.spelling.own = [] → (t.next p).spelling.own = []) := by
      rw [next]
      split
      · next hname =>
        rw [extend, hread]
        refine ⟨Option.some_ne_none _, ?_, id⟩
        intro hbrace
        rw [hbrace] at hname
        cases hname
      · split
        · next hword => exact ⟨Option.some_ne_none _, fun hbrace => by simp [hword] at hbrace, id⟩
        · next hkind => exact absurd hkind hp.1
        · next hkind => exact absurd hkind hp.2
        · exact ⟨halias, fun _ => rfl, fun _ => rfl⟩
        · next hbrace => exact ⟨halias, fun hkind => absurd hkind hbrace, id⟩
    refine ih hpart hnext.1 ?_
    rcases hown with hown | ⟨q, hq, hbrace⟩
    · exact Or.inl (hnext.2.2 hown)
    · rcases List.mem_cons.1 hq with rfl | hq
      · exact Or.inl (hnext.2.1 hbrace)
      · exact Or.inr ⟨q, hq, hbrace⟩

theorem own_foldl_next_brace {part : List Piece}
    (h : ∀ p ∈ part, p.kind ≠ .comma ∧ p.kind ≠ .semicolon) (has : ¬ NoBraceAfterAs part)
    (t : SpelledDraft) : (part.foldl next t).spelling.own = [] := by
  induction part generalizing t with
  | nil => exact absurd List.Pairwise.nil has
  | cons p part ih =>
    obtain ⟨hp, hpart⟩ := List.forall_mem_cons.1 h
    rw [NoBraceAfterAs, List.pairwise_cons, not_and_or] at has
    rcases has with hbrace | hlater
    · push Not at hbrace
      obtain ⟨q, hq, hword, hbrace⟩ := hbrace
      refine own_foldl_next_alias hpart ?_ (Or.inr ⟨q, hq, hbrace⟩)
      rw [next, hword]
      exact Option.some_ne_none _
    · exact ih hpart hlater (t.next p)

/-- A part without a name of its own leaves nothing but prefixes. -/
theorem closePart_nameless {part : List Piece}
    (h : ∀ p ∈ part, p.kind ≠ .comma ∧ p.kind ≠ .semicolon)
    (hown : NoBraceAfterAs part → ownParts part = []) (prefixes : List (List Piece))
    (closed : List Spelling) :
    ∃ prefixes' : List (List Piece),
      closePart ⟨⟨prefixes, [], none, []⟩, closed⟩ part = ⟨⟨prefixes', [], none, []⟩, closed⟩ := by
  have hnameless : (part.foldl next ⟨⟨prefixes, [], none, []⟩, closed⟩).spelling.own = [] := by
    by_cases has : NoBraceAfterAs part
    · have hrun := foldl_next_segment (List.forall_mem_nil _) h has prefixes closed
      rw [List.nil_append] at hrun
      exact (congrArg (·.spelling.own) hrun).trans (hown has)
    · exact own_foldl_next_brace h has _
  refine ⟨(part.foldl next ⟨⟨prefixes, [], none, []⟩, closed⟩).spelling.prefixes, ?_⟩
  rw [closePart, closeImport, hnameless, closed_foldl_next h]
  rfl

theorem closed_foldl_closePart_nameless {ps : List Piece} {parts : List (List Piece)}
    (h : InParts ps parts) (hown : ∀ part ∈ parts, NoBraceAfterAs part → ownParts part = [])
    (prefixes : List (List Piece)) (closed : List Spelling) :
    (parts.foldl closePart ⟨⟨prefixes, [], none, []⟩, closed⟩).closed = closed := by
  induction h generalizing prefixes with
  | left _ => rfl
  | comma hpart _ _ ih =>
    obtain ⟨hfirst, hlater⟩ := List.forall_mem_cons.1 hown
    obtain ⟨prefixes', hclose⟩ := closePart_nameless hpart hfirst prefixes closed
    rw [List.foldl_cons, hclose, ih hlater]
  | semicolon hpart _ =>
    obtain ⟨prefixes', hclose⟩ :=
      closePart_nameless hpart (hown _ List.mem_cons_self) prefixes closed
    rw [List.foldl_cons, hclose]
    rfl

end SpelledDraft

namespace Statement

theorem table_read_congr {ps qs : List Piece}
    (h : ({} : Draft).readAll ps = ({} : Draft).readAll qs) : (read ps).table = (read qs).table := by
  rw [table_read, table_read, h]

/-- A word that starts a statement is nothing to the statements before it. -/
theorem table_read_word {word : Piece} (hword : word.kind = .kwUse) (before rest : List Piece) :
    (read (before ++ word :: rest)).table = (read (before ++ rest)).table := by
  apply table_read_congr
  have hread : word.kind.isRead = false := by
    rw [hword]
    rfl
  rw [← Draft.readAll_filter_isRead (before ++ word :: rest), List.filter_append,
    List.filter_cons_of_neg (by simp [hread]), ← List.filter_append, Draft.readAll_filter_isRead]

theorem table_read_nameless {ps : List Piece}
    (hown : ∀ part ∈ closedParts ps, NoBraceAfterAs part → ownParts part = []) :
    (read ps).table = .empty := by
  have hparts := inParts_closedParts ps
  have hclosed : (({} : SpelledDraft).readAll ps).closed = [] := by
    rw [SpelledDraft.closed_readAll_eq hparts]
    exact SpelledDraft.closed_foldl_closePart_nameless hparts hown [] []
  rw [table_read, (SpelledDraft.spells_default.readAll ps).imports, hclosed]
  rfl

end Statement

/-- Which entries make no difference between two tables, the first laid under and the last over
them. -/
theorem AliasTable.overwrite_inert_iff (earlier given later : AliasTable) :
    (∀ key, (earlier.overwrite (given.overwrite later)).name? key =
        (earlier.overwrite later).name? key) ↔
      ∀ e ∈ given.entries, e.1 ∈ later.aliases ∨ e ∈ (earlier.overwrite later).entries := by
  constructor
  · intro hsame e he
    by_cases hlater : e.1 ∈ later.aliases
    · exact Or.inl hlater
    · right
      have hname := hsame e.1
      rw [name?_overwrite, name?_overwrite, name?_eq_none_iff.2 hlater, Option.none_or,
        mem_entries_iff.1 he, Option.some_or] at hname
      exact mem_entries_iff.2 hname.symm
  · intro hinert key
    cases hlater : later.name? key with
    | some name => simp only [name?_overwrite, hlater, Option.some_or]
    | none =>
      cases hgiven : given.name? key with
      | none => simp only [name?_overwrite, hlater, hgiven, Option.none_or]
      | some name =>
        rcases hinert (key, name) (mem_entries_iff.2 hgiven) with hmem | hmem
        · exact absurd hmem (name?_eq_none_iff.1 hlater)
        · rw [mem_entries_iff.1 hmem, name?_overwrite, name?_overwrite, hlater, hgiven]
          rfl

namespace FileImports

theorem table_ofPieces_skip {list : List Piece} (h : ∀ p ∈ list, p.kind ≠ .kwUse)
    (ps : List Piece) : (ofPieces (list ++ ps)).table = (ofPieces ps).table := by
  induction list with
  | nil => rfl
  | cons p list ih =>
    obtain ⟨hp, hlist⟩ := List.forall_mem_cons.1 h
    rw [List.cons_append, ofPieces_cons, if_neg hp, ih hlist]

/-- A file with one word more has one statement more, laid between those before and behind it. -/
theorem exists_earlier {word : Piece} (hword : word.kind = .kwUse) (before rest : List Piece) :
    ∃ earlier : AliasTable,
      (ofPieces (before ++ word :: rest)).table =
          earlier.overwrite ((Statement.read rest).table.overwrite (ofPieces rest).table) ∧
        (ofPieces (before ++ rest)).table = earlier.overwrite (ofPieces rest).table := by
  induction before with
  | nil =>
    refine ⟨.empty, ?_, (AliasTable.empty_overwrite _).symm⟩
    rw [AliasTable.empty_overwrite, List.nil_append, ofPieces_cons, if_pos hword]
  | cons p before ih =>
    obtain ⟨earlier, hwith, hwithout⟩ := ih
    rw [List.cons_append, List.cons_append, ofPieces_cons, ofPieces_cons]
    by_cases hp : p.kind = .kwUse
    · refine ⟨(Statement.read (before ++ rest)).table.overwrite earlier, ?_, ?_⟩
      · rw [if_pos hp, Statement.table_read_word hword, hwith, AliasTable.overwrite_assoc]
      · rw [if_pos hp, hwithout, AliasTable.overwrite_assoc]
    · rw [if_neg hp, if_neg hp]
      exact ⟨earlier, hwith, hwithout⟩

end FileImports

/-- The word before a capture list starts the statement that the body behind the list gives. Without
that word the imports of the text are the same exactly if every alias of that statement is given
again behind it, or stands for the same name anyway; and they are, if no part of the body that a
comma or the first semicolon ends has a name of its own. -/
theorem table_without_closure_word {t name : Text} {shortTags : Bool}
    {before list body : List Piece} {word : Piece}
    (hpieces : skipOpening (ImportReport.ofText shortTags name t).pieces =
      before ++ word :: (list ++ body))
    (hword : word.kind = .kwUse) (hlist : CaptureList list) :
    let table := (ImportReport.ofText shortTags name t).table
    let without := (FileImports.ofPieces (before ++ (list ++ body))).table
    (Statement.read (list ++ body)).table = (Statement.read body).table ∧
      ((∀ key, table.name? key = without.name? key) ↔
        ∀ e ∈ (Statement.read body).table.entries,
          e.1 ∈ (FileImports.ofPieces body).table.aliases ∨ e ∈ without.entries) ∧
      ((∀ part ∈ closedParts body, NoBraceAfterAs part → ownParts part = []) → table = without) := by
  intro table without
  have hread : (Statement.read (list ++ body)).table = (Statement.read body).table :=
    Statement.table_read_congr
      (Draft.readAll_skip (fun p hp => (hlist.kind_mem hp).imp_right And.left) body)
  have hlater : (FileImports.ofPieces (list ++ body)).table = (FileImports.ofPieces body).table := by
    refine FileImports.table_ofPieces_skip ?_ body
    intro p hp hkind
    rcases hlist.kind_mem hp with h | h
    · simp [hkind] at h
    · exact h.2 hkind
  have htable : table = (FileImports.ofPieces (before ++ word :: (list ++ body))).table :=
    congrArg (fun ps => (FileImports.ofPieces ps).table) hpieces
  obtain ⟨earlier, hwith, hwithout⟩ := FileImports.exists_earlier hword before (list ++ body)
  rw [hread, hlater, ← htable] at hwith
  rw [hlater] at hwithout
  refine ⟨hread, ?_, ?_⟩
  · rw [hwith, show without = _ from hwithout]
    exact AliasTable.overwrite_inert_iff earlier _ _
  · intro hown
    rw [hwith, show without = _ from hwithout, Statement.table_read_nameless hown,
      AliasTable.empty_overwrite]

/-- A body that gives an alias which a statement behind it has as well. -/
theorem table_without_closure_word_later :
    let report := ImportReport.ofText false "a.php".toList
      "<?php fn () use ($x, &$y) \x7b A\\K; \x7d; use B\\K;".toList
    let pieces := skipOpening report.pieces
    let before := pieces.take 5
    let word : Piece := ⟨.kwUse, ⟨12, 15⟩, "use".toList⟩
    let list : List Piece :=
      [⟨.whitespace, ⟨15, 16⟩, [' ']⟩] ++ ⟨.lParen, ⟨16, 17⟩, ['(']⟩ ::
        ([⟨.variable, ⟨17, 19⟩, ['$', 'x']⟩, ⟨.comma, ⟨19, 20⟩, [',']⟩,
          ⟨.whitespace, ⟨20, 21⟩, [' ']⟩, ⟨.punct, ⟨21, 22⟩, ['&']⟩,
          ⟨.variable, ⟨22, 24⟩, ['$', 'y']⟩] ++ [⟨.rParen, ⟨24, 25⟩, [')']⟩])
    let body := pieces.drop 14
    pieces = before ++ word :: (list ++ body) ∧ CaptureList list ∧
      (Statement.read (list ++ body)).table.entries = [(['K'], "\\A\\K".toList)] ∧
      report.table.entries = [(['K'], "\\B\\K".toList)] ∧
      ∀ key, report.table.name? key =
        (FileImports.ofPieces (before ++ (list ++ body))).table.name? key := by
  intro report pieces before word list body
  have hlist : CaptureList list := .intro (by decide) rfl (by decide) rfl
  have hread : pieces = before ++ word :: (list ++ body) ∧
      (Statement.read (list ++ body)).table.entries = [(['K'], "\\A\\K".toList)] ∧
      report.table.entries = [(['K'], "\\B\\K".toList)] ∧
      ∀ e ∈ (Statement.read body).table.entries,
        e.1 ∈ (FileImports.ofPieces body).table.aliases := by decide +kernel
  obtain ⟨hpieces, hstatement, htable, hlater⟩ := hread
  have hsame := (table_without_closure_word hpieces rfl hlist).2.1.2 fun e he =>
    Or.inl (hlater e he)
  exact ⟨hpieces, hlist, hstatement, htable, hsame⟩

/-- The constant that a closure returns is taken for an import. -/
theorem closure_word_imports_constant :
    let report := ImportReport.ofText false "a.php".toList
      "<?php $f = function () use ($x) \x7b return K; \x7d;".toList
    ¬ ∀ (before list body : List Piece) (word : Piece),
      skipOpening report.pieces = before ++ word :: (list ++ body) → word.kind = .kwUse →
        CaptureList list → ∀ key, report.table.name? key =
          (FileImports.ofPieces (before ++ (list ++ body))).table.name? key := by
  intro report hall
  let pieces := skipOpening report.pieces
  let list : List Piece :=
    [⟨.whitespace, ⟨26, 27⟩, [' ']⟩] ++ ⟨.lParen, ⟨27, 28⟩, ['(']⟩ ::
      ([⟨.variable, ⟨28, 30⟩, ['$', 'x']⟩] ++ [⟨.rParen, ⟨30, 31⟩, [')']⟩])
  have hlist : CaptureList list := .intro (by decide) rfl (by decide) rfl
  have hread :
      pieces = pieces.take 9 ++ ⟨.kwUse, ⟨23, 26⟩, "use".toList⟩ :: (list ++ pieces.drop 14) ∧
        report.table.name? ['K'] = some ['\\', 'K'] ∧
        (FileImports.ofPieces (pieces.take 9 ++ (list ++ pieces.drop 14))).table.name? ['K'] =
          none := by decide +kernel
  obtain ⟨hpieces, hwith, hwithout⟩ := hread
  have hname := hall _ list _ _ hpieces rfl hlist ['K']
  rw [hwith, hwithout] at hname
  cases hname

end PhpImports

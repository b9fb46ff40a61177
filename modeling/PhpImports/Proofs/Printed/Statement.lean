import PhpImports.Proofs.Import.Entry
import PhpImports.Proofs.Import.Erase
import PhpImports.Proofs.Import.Path
import PhpImports.Proofs.Printed.Declaration

/-!
# Reading printed declarations

What a printed declaration imports is known before it is read: each name is rooted in the shared
path and goes by its alias or by its last label. Reading the lexemes of the declaration gives a
statement with these entries, which is terminated and warns of repeated aliases only.
-/

namespace PhpImports.Printed

/-- What an import goes by. -/
def Import.key (i : Import) : Text :=
  i.asName.elim i.name.last.text (·.label.text)

/-- An import as it is entered, its name appended to a shared path. -/
def Import.entry (root : Text) (i : Import) : Text × Text :=
  (i.key, root ++ separator :: i.name.path)

def Imports.entries (root : Text) (is : Imports) : List (Text × Text) :=
  (is.first :: is.rest).map (·.entry root)

def Body.entries : Body → List (Text × Text)
  | .plain imports => imports.entries []
  | .group _ path _ _ imports _ _ => imports.entries (separator :: path.path)

def Declaration.entries (d : Declaration) : List (Text × Text) :=
  d.body.entries

/-- The keys that repeat one before them, `seen` being those before all. -/
def repeatedKeys (seen : List Text) : List Text → List Text
  | [] => []
  | key :: keys =>
    if key ∈ seen then key :: repeatedKeys seen keys else repeatedKeys (seen ++ [key]) keys

/-- The warnings of a declaration, their places forgotten. -/
def Declaration.warnings (d : Declaration) : List Diagnostic :=
  (repeatedKeys [] (d.entries.map (·.1))).map fun key => (Cause.duplicateAlias key).report .zero

/-- The lexeme as a piece without a place. -/
def piece (l : Lexeme) : Piece :=
  ⟨l.kind, .zero, l.text⟩

/-- The import as it is read, its name appended to the path of a draft. -/
def Import.clause (groupPath : Text) (i : Import) : ImportClause :=
  ⟨groupPath ++ i.name.path, i.asName.map (·.label.text), .zero⟩

/-- Nothing of an import is read. -/
structure Fresh (d : Draft) : Prop where
  name : d.name = []
  asName : d.asName = none
  nameSpan : d.nameSpan = none

/-- The draft after the lexemes. -/
def readLexemes (d : Draft) (ls : List Lexeme) : Draft :=
  (ls.map piece).foldl Draft.next d

theorem readLexemes_append (d : Draft) (ls ls' : List Lexeme) :
    readLexemes d (ls ++ ls') = readLexemes (readLexemes d ls) ls' := by
  rw [readLexemes, List.map_append, List.foldl_append]
  rfl

theorem readLexemes_cons (d : Draft) (l : Lexeme) (ls : List Lexeme) :
    readLexemes d (l :: ls) = readLexemes (d.next (piece l)) ls := rfl

section Names

theorem head?_label (l : Label) : l.text.head? ≠ some separator := by
  intro h
  exact l.separator_notMem (List.mem_of_mem_head? h)

/-- A separator in front is dropped, and no other. -/
theorem Name.dropWhile_text (n : Name) (r : Text) :
    (n.text ++ r).dropWhile (· = separator) = n.path ++ r := by
  have hpath : (n.path ++ r).dropWhile (· = separator) = n.path ++ r := by
    have hhead : n.first.head ≠ separator := fun h => head?_label n.first (congrArg some h)
    exact List.dropWhile_cons_of_neg (by simpa using hhead)
  rw [Name.text]
  split
  · rw [List.cons_append, List.dropWhile_cons_of_pos (by simp), hpath]
  · exact hpath

theorem Name.text_ne_nil (n : Name) : n.text ≠ [] := by
  rw [Name.text]
  split
  · exact List.cons_ne_nil _ _
  · exact List.cons_ne_nil _ _

/-- The last label of a name stands behind its last separator. -/
theorem Name.path_eq (n : Name) : ∃ y, separator :: n.path = y ++ separator :: n.last.text := by
  rw [Name.path, Name.last]
  rcases List.eq_nil_or_concat n.rest with hrest | ⟨init, l, hrest⟩
  · exact ⟨[], by simp [hrest]⟩
  · exact ⟨separator :: n.first.text ++ init.flatMap fun l => separator :: l.text, by simp [hrest]⟩

end Names

section Drafts

variable {d : Draft}

theorem Marker.readLexemes (m : Option Marker) (d : Draft) :
    Printed.readLexemes d (m.map (·.lexeme)).toList = d := by
  rcases m with _ | ⟨word, after⟩ | ⟨word, after⟩ <;> rfl

theorem next_name (n : Name) (d : Draft) : d.next (piece n.lexeme) = d.extend (piece n.lexeme) := by
  have hkind : (piece n.lexeme).kind.isNamePart = true := n.isNamePart_kind
  rw [Draft.next, if_pos hkind]

/-- The name and the alias of an import are what a draft without any comes to hold. -/
theorem Import.readLexemes (i : Import) (h : Fresh d) : Printed.readLexemes d i.lexemes =
    { d with
      name := i.name.text
      asName := i.asName.map (·.label.text)
      nameSpan := some .zero } := by
  obtain ⟨groupPath, name, asName, nameSpan, imports, braces, firstBrace, diagnostics⟩ := d
  obtain ⟨rfl, rfl, rfl⟩ := h
  rw [Import.lexemes, readLexemes_append, Marker.readLexemes, readLexemes_cons, next_name]
  cases i.asName with
  | none => rfl
  | some a =>
    have hlabel : a.name.text = a.label.text := List.append_nil _
    simp only [Option.elim_some, Alias.lexemes, readLexemes_cons, next_name]
    simp only [Option.map_some, ← hlabel]
    rfl

/-- Then the import is closed, and nothing of the next one is read. -/
theorem Import.closeImport (i : Import) (h : Fresh d)
    (hpath : d.groupPath.getLast? = some separator) :
    (Printed.readLexemes d i.lexemes).closeImport =
      { d with imports := d.imports ++ [i.clause d.groupPath] } := by
  have hname : d.groupPath.appendSegment i.name.text = d.groupPath ++ i.name.path := by
    have hdrop := i.name.dropWhile_text []
    rw [List.append_nil, List.append_nil] at hdrop
    rw [Text.appendSegment, if_pos hpath, hdrop]
  rw [i.readLexemes h, Draft.closeImport]
  simp only [if_neg i.name.text_ne_nil, hname]
  obtain ⟨groupPath, name, asName, nameSpan, imports, braces, firstBrace, diagnostics⟩ := d
  obtain ⟨rfl, rfl, rfl⟩ := h
  rfl

theorem Imports.closeImport (is : Imports) (h : Fresh d)
    (hpath : d.groupPath.getLast? = some separator) :
    (readLexemes d is.lexemes).closeImport =
      { d with imports := d.imports ++ (is.first :: is.rest).map (·.clause d.groupPath) } := by
  obtain ⟨first, rest⟩ := is
  rw [Imports.lexemes]
  induction rest generalizing first d with
  | nil =>
    rw [List.flatMap_nil, List.append_nil]
    exact first.closeImport h hpath
  | cons i is ih =>
    have hcomma : ∀ e : Draft, e.next (piece comma) = e.closeImport := fun _ => rfl
    have hrest := @ih { d with imports := d.imports ++ [first.clause d.groupPath] }
      ⟨h.name, h.asName, h.nameSpan⟩ hpath i
    rw [List.flatMap_cons, readLexemes_append, List.cons_append, readLexemes_cons, hcomma,
      first.closeImport h hpath, hrest]
    simp

theorem Fresh.closeImport (h : Fresh d) : d.closeImport = d := by
  obtain ⟨groupPath, name, asName, nameSpan, imports, braces, firstBrace, diagnostics⟩ := d
  obtain ⟨rfl, rfl, rfl⟩ := h
  rfl

/-- The imports of a body with the path they are appended to. -/
def Body.clauses : Body → List ImportClause
  | .plain imports => (imports.first :: imports.rest).map (·.clause [separator])
  | .group _ path _ _ imports _ _ =>
    (imports.first :: imports.rest).map (·.clause (separator :: path.path ++ [separator]))

/-- The draft behind the brace of a group. -/
def Name.groupDraft (path : Name) : Draft where
  groupPath := separator :: path.path ++ [separator]
  braces := 1
  firstBrace := some .zero

theorem Name.readLexemes_group (path : Name) (ls : List Lexeme) :
    readLexemes {} (path.lexeme :: { kind := .nsSeparator, text := [separator] } ::
      { kind := .lBrace, text := ['{'] } :: ls) = readLexemes path.groupDraft ls := by
  have hpath : Text.appendSegment [separator] (path.text ++ [separator]) =
      separator :: path.path ++ [separator] := by
    have hroot : List.getLast? [separator] = some separator := rfl
    rw [Text.appendSegment, if_pos hroot, path.dropWhile_text]
    rfl
  have hdraft : (((({} : Draft).extend (piece path.lexeme)).extend
      (piece { kind := .nsSeparator, text := [separator] })).openGroup .zero) =
        path.groupDraft := by
    rw [Name.groupDraft, ← hpath]
    rfl
  rw [readLexemes_cons, next_name, ← hdraft]
  rfl

/-- What comes behind the imports of a group closes the last one at most. -/
theorem closeImport_trailing (e : Draft) (h : Fresh e.closeImport) (trailing : Option Layout) :
    (readLexemes e ((trailing.map fun _ => comma).toList ++
      [{ kind := .rBrace, text := ['}'] }])).closeImport = e.closeImport := by
  cases trailing with
  | none => rfl
  | some l => exact h.closeImport

theorem Body.closeImport (b : Body) : (readLexemes {} b.lexemes).closeImport.imports = b.clauses ∧
    (readLexemes {} b.lexemes).closeImport.diagnostics = [] := by
  cases b with
  | plain imports =>
    have hclose := @Imports.closeImport {} imports ⟨rfl, rfl, rfl⟩ rfl
    rw [show (Body.plain imports).lexemes = imports.lexemes from rfl, hclose]
    exact ⟨rfl, rfl⟩
  | group marker path _ _ imports trailing after =>
    have hclose := @Imports.closeImport path.groupDraft imports ⟨rfl, rfl, rfl⟩ (by
      rw [Name.groupDraft, List.getLast?_concat])
    have hfresh : Fresh (readLexemes path.groupDraft imports.lexemes).closeImport := by
      rw [hclose]
      exact ⟨rfl, rfl, rfl⟩
    rw [Body.lexemes, readLexemes_append, Marker.readLexemes, path.readLexemes_group,
      readLexemes_append, closeImport_trailing _ hfresh, hclose]
    exact ⟨rfl, rfl⟩

end Drafts

section Statements

/-- The lexeme neither starts a statement nor ends one, and nothing is wrong with it. -/
structure Inside (l : Lexeme) : Prop where
  not_use : l.kind ≠ .kwUse
  not_semicolon : l.kind ≠ .semicolon
  sound : l.fault = none

/-- Of a lexeme that nothing is wrong with, only the kind counts. -/
theorem Inside.ofKind {kind : TokenKind} (text : Text) (huse : kind ≠ .kwUse)
    (hsemicolon : kind ≠ .semicolon) : Inside { kind, text } :=
  ⟨huse, hsemicolon, rfl⟩

theorem Name.inside (n : Name) : Inside n.lexeme := by
  have hkind : n.lexeme.kind.isNamePart = true := n.isNamePart_kind
  constructor
  · intro h
    rw [h] at hkind
    cases hkind
  · intro h
    rw [h] at hkind
    cases hkind
  · rfl

theorem Marker.inside (m : Option Marker) : ∀ l ∈ (m.map (·.lexeme)).toList, Inside l := by
  intro l hl
  rcases m with _ | ⟨word, after⟩ | ⟨word, after⟩
  · cases hl
  · obtain rfl := List.mem_singleton.1 hl
    exact .ofKind _ (by decide) (by decide)
  · obtain rfl := List.mem_singleton.1 hl
    exact .ofKind _ (by decide) (by decide)

theorem Import.inside (i : Import) : ∀ l ∈ i.lexemes, Inside l := by
  intro l hl
  rw [Import.lexemes, List.mem_append, List.mem_cons] at hl
  rcases hl with hl | rfl | hl
  · exact Marker.inside i.marker l hl
  · exact i.name.inside
  · cases hname : i.asName with
    | none =>
      rw [hname] at hl
      cases hl
    | some a =>
      rw [hname, Option.elim_some, Alias.lexemes, List.mem_pair] at hl
      rcases hl with rfl | rfl
      · exact .ofKind _ (by decide) (by decide)
      · exact a.name.inside

theorem Imports.inside (is : Imports) : ∀ l ∈ is.lexemes, Inside l := by
  intro l hl
  rw [Imports.lexemes, List.mem_append, List.mem_flatMap] at hl
  rcases hl with hl | ⟨i, -, hl⟩
  · exact is.first.inside l hl
  · rcases List.mem_cons.1 hl with rfl | hl
    · exact .ofKind _ (by decide) (by decide)
    · exact i.inside l hl

theorem Body.inside (b : Body) : ∀ l ∈ b.lexemes, Inside l := by
  cases b with
  | plain imports => exact imports.inside
  | group marker path _ _ imports trailing after =>
    intro l hl
    simp only [Body.lexemes, List.mem_append, List.mem_cons, List.not_mem_nil, or_false] at hl
    rcases hl with hl | rfl | rfl | rfl | hl | hl | rfl
    · exact Marker.inside marker l hl
    · exact path.inside
    · exact .ofKind _ (by decide) (by decide)
    · exact .ofKind _ (by decide) (by decide)
    · exact imports.inside l hl
    · obtain ⟨_, -, rfl⟩ := Option.map_eq_some_iff.1 (Option.mem_toList.1 hl)
      exact .ofKind _ (by decide) (by decide)
    · exact .ofKind _ (by decide) (by decide)

theorem readAll_semicolon {d : Draft} {ls : List Lexeme} (hls : ∀ l ∈ ls, Inside l)
    (ps : List Piece) : d.readAll (ls.map piece ++ piece semicolon :: ps) =
      ((readLexemes d ls).closeImport, true) := by
  induction ls generalizing d with
  | nil => rfl
  | cons l ls ih =>
    have hl : (piece l).kind ≠ .semicolon := (hls l List.mem_cons_self).not_semicolon
    rw [List.map_cons, List.cons_append, Draft.readAll, if_neg hl,
      ih fun l' hl' => hls l' (List.mem_cons_of_mem l hl')]
    rfl

theorem statements_inside {ls : List Lexeme} (hls : ∀ l ∈ ls, Inside l) (ps : List Piece) :
    Statement.readAll (ls.map piece ++ piece semicolon :: ps) = Statement.readAll ps := by
  induction ls with
  | nil => rfl
  | cons l ls ih =>
    have hl : (piece l).kind ≠ .kwUse := (hls l List.mem_cons_self).not_use
    rw [List.map_cons, List.cons_append, Statement.readAll, if_neg hl,
      ih fun l' hl' => hls l' (List.mem_cons_of_mem l hl')]

/-- The statement that a printed declaration is read as. -/
def Declaration.statement (d : Declaration) : Statement :=
  d.body.clauses.foldl Statement.enter { terminated := true }

/-- A printed declaration is one statement, whatever comes after it. -/
theorem Declaration.readAll (d : Declaration) (ps : List Piece) :
    Statement.readAll (d.lexemes.map piece ++ ps) = d.statement :: Statement.readAll ps := by
  obtain ⟨himports, hdiagnostics⟩ := d.body.closeImport
  have hpieces : d.lexemes.map piece ++ ps = piece { kind := .kwUse, text := d.word.text } ::
      (d.body.lexemes.map piece ++ piece semicolon :: ps) := by
    rw [Declaration.lexemes]
    simp
  have hdraft := @readAll_semicolon {} _ d.body.inside ps
  have hread : Statement.read (d.body.lexemes.map piece ++ piece semicolon :: ps) =
      d.statement := by
    rw [Statement.read, hdraft]
    simp only [Statement.ofDraft, if_true, himports, hdiagnostics]
    rfl
  have hkind : (piece { kind := .kwUse, text := d.word.text }).kind = .kwUse := rfl
  rw [hpieces, Statement.readAll, if_pos hkind, hread, statements_inside d.body.inside]

theorem File.readAll (f : File) :
    Statement.readAll (f.lexemes.map piece) = f.declarations.map (·.statement) := by
  rw [File.lexemes]
  induction f.declarations with
  | nil => rfl
  | cons d ds ih => rw [List.flatMap_cons, List.map_append, d.readAll, ih, List.map_cons]

end Statements

section Entries

theorem reverse_takeWhile_label (x : Text) (l : Label) :
    ((x ++ separator :: l.text).reverse.takeWhile (· ≠ separator)).reverse = l.text := by
  have hlabel : ∀ c ∈ l.text.reverse, decide (c ≠ separator) = true := by
    intro c hc
    rw [decide_eq_true_iff]
    rintro rfl
    exact l.separator_notMem (List.mem_reverse.1 hc)
  rw [List.reverse_append, List.reverse_cons, List.append_assoc,
    List.takeWhile_append_of_pos hlabel, List.singleton_append,
    List.takeWhile_cons_of_neg (by simp), List.append_nil, List.reverse_reverse]

/-- An import of a printed declaration is kept, under its key and its full name. -/
theorem Import.entry_clause (root : Text) (i : Import) :
    (i.clause (root ++ [separator])).IsKept ∧
      (i.clause (root ++ [separator])).entry = i.entry root := by
  obtain ⟨y, hpath⟩ := i.name.path_eq
  have hname : (i.clause (root ++ [separator])).name = root ++ separator :: i.name.path := by
    rw [Import.clause, List.append_assoc]
    rfl
  have hlast : root ++ separator :: i.name.path = (root ++ y) ++ separator :: i.name.last.text := by
    rw [hpath, List.append_assoc]
  have hkey : (i.clause (root ++ [separator])).localName = i.key := by
    rw [ImportClause.localName, hname, hlast, reverse_takeWhile_label, Import.key, Import.clause]
    cases i.asName <;> rfl
  refine ⟨⟨?_, ?_⟩, ?_⟩
  · intro h
    have hlabel : i.name.last.text ≠ [] := List.cons_ne_nil _ _
    rw [hname, hlast, ← List.singleton_append, ← List.append_assoc,
      List.getLast?_append_of_ne_nil _ hlabel] at h
    exact i.name.last.separator_notMem (List.mem_of_getLast? h)
  · rw [hkey, Import.key]
    cases i.asName with
    | none => exact List.cons_ne_nil _ _
    | some a => exact List.cons_ne_nil _ _
  · rw [ImportClause.entry, hkey, hname]
    rfl

theorem Imports.keptEntries_clauses (root : Text) (is : List Import) :
    keptEntries (is.map (·.clause (root ++ [separator]))) = is.map (·.entry root) := by
  induction is with
  | nil => rfl
  | cons i is ih =>
    obtain ⟨hkept, hentry⟩ := i.entry_clause root
    rw [List.map_cons, List.map_cons, ← ih, ← hentry]
    simp [keptEntries, hkept]

theorem Body.keptEntries_clauses (b : Body) : keptEntries b.clauses = b.entries := by
  cases b with
  | plain imports => exact Imports.keptEntries_clauses [] _
  | group _ path _ _ imports _ _ => exact Imports.keptEntries_clauses (separator :: path.path) _

theorem Body.kept_clauses (b : Body) : ∀ i ∈ b.clauses, i.IsKept ∧ i.span = .zero := by
  intro i hi
  cases b with
  | plain imports =>
    obtain ⟨j, -, rfl⟩ := List.mem_map.1 hi
    exact ⟨(j.entry_clause []).1, rfl⟩
  | group _ path _ _ imports _ _ =>
    obtain ⟨j, -, rfl⟩ := List.mem_map.1 hi
    exact ⟨(j.entry_clause (separator :: path.path)).1, rfl⟩

theorem Body.map_localName_clauses (b : Body) :
    b.clauses.map (·.localName) = b.entries.map (·.1) := by
  have hkept : b.clauses.filter (·.IsKept) = b.clauses := by
    rw [List.filter_eq_self]
    intro i hi
    exact decide_eq_true (b.kept_clauses i hi).1
  rw [← b.keptEntries_clauses, keptEntries, hkept, List.map_map]
  rfl

/-- Kept imports without places warn of the aliases that repeat. -/
theorem diagnostics_foldl_enter {is : List ImportClause} (his : ∀ i ∈ is, i.IsKept ∧ i.span = .zero)
    (s : Statement) : (is.foldl Statement.enter s).diagnostics = s.diagnostics ++
      (repeatedKeys s.table.aliases (is.map (·.localName))).map
        fun key => (Cause.duplicateAlias key).report .zero := by
  induction is generalizing s with
  | nil => simp [repeatedKeys]
  | cons i is ih =>
    obtain ⟨⟨hlast, hkey⟩, hspan⟩ := his i List.mem_cons_self
    have hrest := ih (fun j hj => his j (List.mem_cons_of_mem i hj)) (s.enter i)
    have htable : (s.enter i).table = s.table.insert i.localName i.name := by
      rw [Statement.table_enter, if_pos ⟨hlast, hkey⟩]
    have hdiagnostics : (s.enter i).diagnostics = s.diagnostics ++
        if s.table.contains i.localName then [(Cause.duplicateAlias i.localName).report .zero]
        else [] := by
      rw [Statement.enter, if_neg hlast, if_neg hkey, hspan]
    rw [List.foldl_cons, hrest, htable, hdiagnostics, AliasTable.aliases_insert, List.map_cons,
      repeatedKeys]
    by_cases hmem : i.localName ∈ s.table.aliases
    · rw [if_pos hmem, if_pos hmem, if_pos (AliasTable.contains_iff.2 hmem)]
      simp
    · rw [if_neg hmem, if_neg hmem, if_neg fun h => hmem (AliasTable.contains_iff.1 h)]
      simp

theorem Declaration.table_statement (d : Declaration) : d.statement.table =
    d.entries.foldl (fun t e => t.insert e.1 e.2) .empty := by
  rw [Declaration.statement, Statement.table_foldl_enter, d.body.keptEntries_clauses]
  rfl

theorem Declaration.diagnostics_statement (d : Declaration) :
    d.statement.diagnostics = d.warnings := by
  rw [Declaration.statement, diagnostics_foldl_enter d.body.kept_clauses,
    d.body.map_localName_clauses]
  rfl

end Entries

end PhpImports.Printed

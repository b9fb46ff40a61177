import PhpImports.Proofs.Import.Entry

/-!
# Places and layout do not matter

Where a piece stands decides where diagnostics point and nothing else, and what only lays out the
code decides nothing at all. So the imports of a file are, up to the places in its diagnostics,
those of its other pieces with all places forgotten (`FileImports.erase_ofPieces`).
-/

namespace PhpImports

theorem TokenKind.ne_of_isTrivia {k k' : TokenKind} (h : k.isTrivia = true)
    (h' : k'.isTrivia = false) : k ≠ k' := by
  rintro rfl
  rw [h] at h'
  cases h'

/-- The piece without its place. -/
def Piece.erase (p : Piece) : Piece :=
  { p with span := .zero }

def Diagnostic.erase (d : Diagnostic) : Diagnostic :=
  { d with
    span := d.span.map fun _ => .zero
    notes := d.notes.map fun n => { n with span := .zero } }

def ImportClause.erase (i : ImportClause) : ImportClause :=
  { i with span := .zero }

namespace Draft

def erase (d : Draft) : Draft :=
  { d with
    nameSpan := d.nameSpan.map fun _ => .zero
    imports := d.imports.map (·.erase)
    firstBrace := d.firstBrace.map fun _ => .zero
    diagnostics := d.diagnostics.map (·.erase) }

theorem erase_extend (d : Draft) (p : Piece) : (d.extend p).erase = d.erase.extend p.erase := by
  obtain ⟨groupPath, name, asName, nameSpan, imports, braces, firstBrace, diagnostics⟩ := d
  cases asName with
  | none => cases nameSpan <;> rfl
  | some read => cases nameSpan <;> rfl

theorem erase_closeImport (d : Draft) : d.closeImport.erase = d.erase.closeImport := by
  rw [closeImport, closeImport, show d.erase.name = d.name from rfl]
  by_cases h : d.name = []
  · rw [if_pos h, if_pos h]
    rfl
  · rw [if_neg h, if_neg h]
    have hspan : (Option.map (fun _ => Span.zero) d.nameSpan).getD .zero = .zero := by
      cases d.nameSpan <;> rfl
    simp only [erase, List.map_append, List.map_singleton, ImportClause.erase, hspan,
      Option.map_none]

theorem erase_openGroup (d : Draft) (brace : Span) :
    (d.openGroup brace).erase = d.erase.openGroup .zero := by
  rw [openGroup, openGroup]
  simp only [erase]
  cases d.firstBrace with
  | none => simp
  | some outer => simp [Diagnostic.erase, Cause.report]

/-- What a piece does to a draft does not depend on places. -/
theorem erase_next (d : Draft) (p : Piece) : (d.next p).erase = d.erase.next p.erase := by
  have hkind : p.erase.kind = p.kind := rfl
  rw [next, next, hkind]
  split
  · exact erase_extend d p
  · cases p.kind with
    | kwAs => rfl
    | comma => exact erase_closeImport d
    | semicolon => exact erase_closeImport d
    | lBrace => exact erase_openGroup d p.span
    | _ => rfl

theorem next_of_isTrivia {p : Piece} (h : p.kind.isTrivia = true) (d : Draft) : d.next p = d := by
  rw [next]
  cases hkind : p.kind with
  | whitespace | comment | docComment => rfl
  | _ => rw [hkind] at h; cases h

end Draft

/-- The pieces that are no trivia, their places forgotten. -/
def erasePieces (ps : List Piece) : List Piece :=
  (ps.filter fun p => !p.kind.isTrivia).map (·.erase)

theorem erasePieces_cons_of_isTrivia {p : Piece} (h : p.kind.isTrivia = true) (ps : List Piece) :
    erasePieces (p :: ps) = erasePieces ps := by
  simp [erasePieces, h]

theorem erasePieces_cons {p : Piece} (h : p.kind.isTrivia = false) (ps : List Piece) :
    erasePieces (p :: ps) = p.erase :: erasePieces ps := by
  simp [erasePieces, h]

theorem Draft.erase_readAll (d : Draft) (ps : List Piece) :
    d.erase.readAll (erasePieces ps) = ((d.readAll ps).1.erase, (d.readAll ps).2) := by
  induction ps generalizing d with
  | nil => rfl
  | cons p ps ih =>
    cases htrivia : p.kind.isTrivia with
    | true =>
      rw [erasePieces_cons_of_isTrivia htrivia, readAll,
        if_neg (TokenKind.ne_of_isTrivia htrivia rfl), next_of_isTrivia htrivia, ih]
    | false =>
      rw [erasePieces_cons htrivia, readAll, readAll, show p.erase.kind = p.kind from rfl,
        ← erase_next]
      by_cases hkind : p.kind = .semicolon
      · rw [if_pos hkind, if_pos hkind]
      · rw [if_neg hkind, if_neg hkind, ih]

namespace Statement

def erase (s : Statement) : Statement :=
  { s with diagnostics := s.diagnostics.map (·.erase) }

theorem erase_enter (s : Statement) (i : ImportClause) :
    (s.enter i).erase = s.erase.enter i.erase := by
  have hkey : i.erase.localName = i.localName := rfl
  have hname : i.erase.name = i.name := rfl
  have htable : s.erase.table = s.table := rfl
  rw [enter, enter, hkey, hname, htable]
  split
  · simp [erase, Diagnostic.erase, Cause.report, ImportClause.erase]
  · split
    · simp [erase, Diagnostic.erase, Cause.report, ImportClause.erase]
    · split
      · simp [erase, Diagnostic.erase, Cause.report, ImportClause.erase]
      · simp [erase]

theorem erase_foldl_enter (is : List ImportClause) (s : Statement) :
    (is.foldl enter s).erase = (is.map (·.erase)).foldl enter s.erase := by
  induction is generalizing s with
  | nil => rfl
  | cons i is ih => rw [List.foldl_cons, ih, erase_enter, List.map_cons, List.foldl_cons]

theorem erase_ofDraft (d : Draft) (terminated : Bool) (fileEnd : Span) :
    (ofDraft d terminated fileEnd).erase = ofDraft d.erase terminated .zero := by
  have hopen : (d.unterminated fileEnd).erase = d.erase.unterminated .zero := by
    simp only [Draft.unterminated, Draft.erase, Diagnostic.erase, Cause.report]
    cases d.nameSpan <;> rfl
  rw [ofDraft, ofDraft, erase_foldl_enter]
  cases terminated with
  | true => rfl
  | false =>
    simp only [erase, Bool.false_eq_true, if_false, List.map_append, List.map_singleton, hopen]
    rfl

theorem fileEnd_erasePieces (ps : List Piece) :
    ((erasePieces ps).getLast?.map (·.span.atStop)).getD Span.zero = .zero := by
  rw [erasePieces, List.getLast?_map]
  cases (ps.filter fun p => !p.kind.isTrivia).getLast? <;> rfl

theorem erase_read (ps : List Piece) : (read ps).erase = read (erasePieces ps) := by
  have hdraft : ({} : Draft).readAll (erasePieces ps) =
      ((({} : Draft).readAll ps).1.erase, (({} : Draft).readAll ps).2) :=
    Draft.erase_readAll {} ps
  rw [read, read, hdraft, fileEnd_erasePieces]
  exact erase_ofDraft _ _ _

theorem erase_readAll (ps : List Piece) :
    (readAll ps).map (·.erase) = readAll (erasePieces ps) := by
  induction ps with
  | nil => rfl
  | cons p ps ih =>
    rw [readAll]
    cases htrivia : p.kind.isTrivia with
    | true =>
      rw [if_neg (TokenKind.ne_of_isTrivia htrivia rfl), erasePieces_cons_of_isTrivia htrivia, ih]
    | false =>
      rw [erasePieces_cons htrivia, readAll, show p.erase.kind = p.kind from rfl]
      by_cases hkind : p.kind = .kwUse
      · rw [if_pos hkind, if_pos hkind, List.map_cons, erase_read, ih]
      · rw [if_neg hkind, if_neg hkind, ih]

end Statement

namespace FileImports

def erase (f : FileImports) : FileImports :=
  { f with diagnostics := f.diagnostics.map (·.erase) }

/-- What a file imports does not depend on layout, and on places only where diagnostics point. -/
theorem erase_ofPieces (ps : List Piece) : (ofPieces ps).erase = ofPieces (erasePieces ps) := by
  have htable : ∀ (ss : List Statement) (t : AliasTable),
      (ss.map (·.erase)).foldl (fun t s => t.overwrite s.table) t =
        ss.foldl (fun t s => t.overwrite s.table) t := by
    intro ss t
    rw [List.foldl_map]
    rfl
  rw [ofPieces, ofPieces, ← Statement.erase_readAll, ofStatements, ofStatements, htable, erase]
  simp [List.flatMap_map, List.map_flatMap, Statement.erase]

end FileImports
end PhpImports

import PhpImports.Import.AliasTable
import PhpImports.Import.Draft

/-!
# Import statements

A statement is read from the pieces after its first word up to a semicolon, or up to the end of the
file with a warning. Every import of it then enters the alias table or is reported: a name must not
end with a separator, an alias must not be empty, and the last of several imports with one alias
counts.
-/

namespace PhpImports

structure Statement where
  table : AliasTable := .empty
  /-- Whether a semicolon ended it. -/
  terminated : Bool
  diagnostics : List Diagnostic := []
deriving DecidableEq, Inhabited

/-- The warning that a statement has no semicolon. It names the import that was left open. -/
def Draft.unterminated (d : Draft) (fileEnd : Span) : Diagnostic :=
  { Cause.unterminatedUse.report (d.nameSpan.getD fileEnd) with
    help := if d.name = [] then none
      else some ("trailing import '".toList ++ d.name ++ "' was ignored".toList) }

namespace Statement

/-- The statement with one more import, or with the reason why it has none. -/
def enter (s : Statement) (i : ImportClause) : Statement :=
  let key := i.localName
  if i.name.getLast? = some separator then
    { s with diagnostics := s.diagnostics ++ [(Cause.trailingSeparator i.name).report i.span] }
  else if key = [] then
    { s with diagnostics := s.diagnostics ++ [(Cause.emptyAlias i.name).report i.span] }
  else
    { s with
      table := s.table.insert key i.name
      diagnostics := s.diagnostics ++
        if s.table.contains key then [(Cause.duplicateAlias key).report i.span] else [] }

/-- The statement of a finished draft. -/
def ofDraft (d : Draft) (terminated : Bool) (fileEnd : Span) : Statement :=
  let found := if terminated then d.diagnostics else d.diagnostics ++ [d.unterminated fileEnd]
  d.imports.foldl enter { terminated, diagnostics := found }

/-- The statement whose first word the pieces come after; they may run to the end of the file. -/
def read (ps : List Piece) : Statement :=
  let (d, terminated) := ({} : Draft).readAll ps
  ofDraft d terminated ((ps.getLast?.map (·.span.atStop)).getD Span.zero)

end Statement
end PhpImports

import PhpImports.Import.Statement

/-!
# Imports of a file

Every word that starts an import statement starts one, wherever it stands, and the statement is read
from all that follows it. The tables of the statements are laid over each other in order, so the
later import of an alias wins.
-/

namespace PhpImports

structure FileImports where
  table : AliasTable := .empty
  diagnostics : List Diagnostic := []
  statementCount : Nat := 0
deriving DecidableEq, Inhabited

/-- The statements of a list of pieces, in order. -/
def Statement.readAll : List Piece → List Statement
  | [] => []
  | p :: ps => if p.kind = .kwUse then read ps :: readAll ps else readAll ps

namespace FileImports

def ofStatements (ss : List Statement) : FileImports where
  table := ss.foldl (fun t s => t.overwrite s.table) .empty
  diagnostics := ss.flatMap (·.diagnostics)
  statementCount := ss.length

def ofPieces (ps : List Piece) : FileImports :=
  ofStatements (Statement.readAll ps)

/-- The imports that tokens declare, read in their source text. -/
def ofTokens (source : Text) (ts : List Token) : FileImports :=
  ofPieces (ts.map (·.inText source))

end FileImports

/-- What comes after the first token, which starts the code or is text outside it. -/
def skipOpening {α : Type} (ts : List α) : List α :=
  ts.drop 1

end PhpImports

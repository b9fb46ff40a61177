import PhpImports.Import.FileImports
import PhpImports.Lexing
import PhpImports.Source.Read

/-!
# Reports on a source

A source is read for its tokens alone or for its imports as well. A token stands for what its span
covers in the source, which is what was lexed as long as offsets do not wrap around. Either way the
source may come from a text or from a file, and only reading the file can fail.
-/

namespace PhpImports

structure TokenReport where
  source : Source
  pieces : List Piece
  diagnostics : List Diagnostic
deriving DecidableEq, Repr, Inhabited

structure ImportReport where
  source : Source
  pieces : List Piece
  table : AliasTable
  /-- What is wrong with the text, and then with its statements. -/
  diagnostics : List Diagnostic
deriving DecidableEq, Inhabited

namespace TokenReport

def ofSource (shortTags : Bool) (source : Source) : TokenReport :=
  let lexing := source.text.lex shortTags
  ⟨source, lexing.readIn source.text, lexing.diagnostics⟩

def ofText (shortTags : Bool) (name text : Text) : TokenReport :=
  ofSource shortTags (.ofText name text)

def ofFile (shortTags : Bool) (fs : FileSystem) (path : Text) : Except ReadFailure TokenReport :=
  (Source.read fs path).map (ofSource shortTags)

theorem ofSource_eq (shortTags : Bool) (source : Source) :
    ofSource shortTags source =
      let lexing := source.text.lex shortTags
      ⟨source, lexing.tokens.map (·.inText source.text), lexing.diagnostics⟩ := by
  simp only [ofSource, Text.readIn_lex]

end TokenReport

namespace ImportReport

def ofSource (shortTags : Bool) (source : Source) : ImportReport :=
  let lexing := source.text.lex shortTags
  let pieces := lexing.readIn source.text
  let imports := FileImports.ofPieces (skipOpening pieces)
  ⟨source, pieces, imports.table, lexing.diagnostics ++ imports.diagnostics⟩

def ofText (shortTags : Bool) (name text : Text) : ImportReport :=
  ofSource shortTags (.ofText name text)

def ofFile (shortTags : Bool) (fs : FileSystem) (path : Text) : Except ReadFailure ImportReport :=
  (Source.read fs path).map (ofSource shortTags)

/-- A report goes by the tokens of a source, each read by its span. -/
theorem ofSource_eq (shortTags : Bool) (source : Source) :
    ofSource shortTags source =
      let lexing := source.text.lex shortTags
      let imports := FileImports.ofTokens source.text (skipOpening lexing.tokens)
      ⟨source, lexing.tokens.map (·.inText source.text), imports.table,
        lexing.diagnostics ++ imports.diagnostics⟩ := by
  simp only [ofSource, Text.readIn_lex, skipOpening, FileImports.ofTokens, List.map_drop]

/-- As long as offsets do not wrap around it goes by what was lexed. -/
theorem ofSource_of_lt {shortTags : Bool} {source : Source}
    (h : source.text.size < UInt32.size) :
    ofSource shortTags source =
      let lexing := source.text.lex shortTags
      let imports := FileImports.ofPieces (skipOpening lexing.pieces)
      ⟨source, lexing.pieces, imports.table, lexing.diagnostics ++ imports.diagnostics⟩ := by
  simp only [ofSource, Text.readIn_lex_of_lt h]

end ImportReport

/-- The imports of a file without anything else. -/
def AliasTable.ofFile (shortTags : Bool) (fs : FileSystem) (path : Text) :
    Except ReadFailure AliasTable :=
  (ImportReport.ofFile shortTags fs path).map (·.table)

end PhpImports

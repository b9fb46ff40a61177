import PhpImports.Diagnostic
import PhpImports.Text.Label
import PhpImports.Token

/-!
# Statements being read

A draft is what is known of an import statement after some of its pieces. Names and aliases grow
piece by piece; a comma or a semicolon closes the import at hand, and a brace moves what was read
into the prefix that the imports after it share.
-/

namespace PhpImports

/-- A path with a segment after it. A separator at the end of the path stands for any that the
segment starts with. -/
def Text.appendSegment (path segment : Text) : Text :=
  if path.getLast? = some separator then path ++ segment.dropWhile (· = separator)
  else path ++ segment

/-- An import as it was read, not yet judged. -/
structure ImportClause where
  name : Text
  /-- The alias that was written, if one was announced. -/
  asName : Option Text
  span : Span
deriving DecidableEq, Repr, Inhabited

/-- An import goes by the alias that was written, or else by the last label of its name. -/
def ImportClause.localName (i : ImportClause) : Text :=
  i.asName.getD (i.name.reverse.takeWhile (· ≠ separator)).reverse

structure Draft where
  /-- The path that the names of the statement are appended to. -/
  groupPath : Text := [separator]
  /-- The name read since the last comma or brace. -/
  name : Text := []
  /-- The alias read so far, if one was announced. -/
  asName : Option Text := none
  /-- What the name and the alias cover. -/
  nameSpan : Option Span := none
  imports : List ImportClause := []
  /-- How many braces were opened. -/
  braces : UInt32 := 0
  /-- The first brace that was opened. -/
  firstBrace : Option Span := none
  diagnostics : List Diagnostic := []
deriving DecidableEq, Repr, Inhabited

namespace Draft

/-- More of the name, or of the alias once it was announced. -/
def extend (d : Draft) (p : Piece) : Draft :=
  let nameSpan := some (match d.nameSpan with
    | some span => span.merge p.span
    | none => p.span)
  match d.asName with
  | some read => { d with asName := some (read ++ p.text), nameSpan }
  | none => { d with name := d.name ++ p.text, nameSpan }

def announceAlias (d : Draft) : Draft :=
  { d with asName := some (d.asName.getD []) }

/-- The name at hand becomes an import, unless it is empty. -/
def closeImport (d : Draft) : Draft :=
  let closed := { d with name := [], asName := none, nameSpan := none }
  if d.name = [] then closed
  else
    { closed with
      imports := d.imports ++
        [⟨d.groupPath.appendSegment d.name, d.asName, d.nameSpan.getD Span.zero⟩] }

/-- The name at hand becomes part of the shared path. The alias, if announced, stays. -/
def openGroup (d : Draft) (brace : Span) : Draft :=
  { d with
    groupPath := d.groupPath.appendSegment d.name
    name := []
    nameSpan := none
    braces := d.braces + 1
    firstBrace := some (d.firstBrace.getD brace)
    diagnostics := match d.firstBrace with
      | some outer =>
        d.diagnostics ++
          [{ Cause.nestedGroup.report brace with
             notes := [⟨"outer group opened here".toList, outer⟩] }]
      | none => d.diagnostics }

/-- The draft after one more piece. -/
def next (d : Draft) (p : Piece) : Draft :=
  if p.kind.isNamePart then d.extend p
  else match p.kind with
    | .kwAs => d.announceAlias
    | .comma | .semicolon => d.closeImport
    | .lBrace => d.openGroup p.span
    | _ => d

/-- The draft after the pieces up to the first semicolon, and whether there is one. -/
def readAll (d : Draft) : List Piece → Draft × Bool
  | [] => (d, false)
  | p :: ps => if p.kind = .semicolon then (d.next p, true) else (d.next p).readAll ps

end Draft
end PhpImports

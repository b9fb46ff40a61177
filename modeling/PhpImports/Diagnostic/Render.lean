import PhpImports.Cursor.LineTable
import PhpImports.Diagnostic
import PhpImports.Source
import PhpImports.Text.Location

/-!
# Rendered diagnostics

A rendered diagnostic is a list of lines: what is wrong and where, the quoted source line with a
caret below the place, the same for every note, and the help. Printed places count from one, in 32
bits. Rendering stops at a fault of looking up a place.
-/

namespace PhpImports

def Severity.name : Severity → Text
  | .error => "error".toList
  | .warning => "warning".toList

def Source.lineTable (source : Source) : Cursor.LineTable :=
  .ofText source.text

/-- A place as file name, line and column. -/
def Source.place (source : Source) (byte : UInt32) : Cursor.Result Text := do
  let (line, column) ← source.lineTable.lineCol byte
  return source.name ++ ':' :: Text.ofNat (line + 1).toNat ++ ':' :: Text.ofNat (column + 1).toNat

/-- The line of an offset and a caret below the place, each after the gutter. -/
def Source.quote (source : Source) (gutter : Text) (byte : UInt32) :
    Cursor.Result (Text × Text) := do
  let (_, column) ← source.lineTable.lineCol byte
  let line ← source.lineTable.lineText byte
  return (gutter ++ line, gutter ++ List.replicate column.toNat ' ' ++ ['^'])

/-- A diagnostic as it is shown: of its cause only the message is left. -/
structure Notice where
  severity : Severity
  message : Text
  code : Option Text := none
  span : Option Span := none
  notes : List Note := []
  help : Option Text := none
deriving DecidableEq, Repr, Inhabited

namespace Notice

def codeText (n : Notice) : Text :=
  match n.code with
  | some code => '[' :: code ++ [']']
  | none => []

/-- Where a notice points to, and for one without a span the file that it is about. -/
def placeText (n : Notice) (source : Source) : Cursor.Result Text :=
  match n.span with
  | some span => source.place span.start
  | none => .ok source.name

/-- What is wrong and where. -/
def headline (n : Notice) (source : Source) : Cursor.Result Text := do
  let place ← n.placeText source
  return n.severity.name ++ n.codeText ++ ": ".toList ++ place ++ ": ".toList ++ n.message

def spanLines (n : Notice) (source : Source) : Cursor.Result (List Text) :=
  match n.span with
  | some span => (source.quote "  | ".toList span.start).map fun shown => [shown.1, shown.2]
  | none => .ok []

def helpLines (n : Notice) : List Text :=
  match n.help with
  | some help => ["  = help: ".toList ++ help]
  | none => []

end Notice

def Note.renderLines (n : Note) (source : Source) : Cursor.Result (List Text) := do
  let place ← source.place n.span.start
  let (line, caret) ← source.quote "    | ".toList n.span.start
  return ["  = note: ".toList ++ n.message, line, caret ++ "  (".toList ++ place ++ ")".toList]

namespace Notice

def renderLines (n : Notice) (source : Source) : Cursor.Result (List Text) := do
  let headline ← n.headline source
  let spanLines ← n.spanLines source
  let notes ← n.notes.mapM (·.renderLines source)
  return headline :: spanLines ++ notes.flatten ++ n.helpLines

/-- The lines of a notice as one text, with no line feed after the last. -/
def render (n : Notice) (source : Source) : Cursor.Result Text := do
  return Text.joinLines (← n.renderLines source)

end Notice

namespace Diagnostic

def notice (d : Diagnostic) : Notice where
  severity := d.severity
  message := d.message
  code := d.code
  span := d.span
  notes := d.notes
  help := d.help

def rendered (d : Diagnostic) (source : Source) : Cursor.Result Text :=
  d.notice.render source

/-- The text of a rendered diagnostic, and none at a fault. -/
def render (d : Diagnostic) (source : Source) : Text :=
  (d.rendered source).toOption.getD []

end Diagnostic
end PhpImports

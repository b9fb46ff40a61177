import PhpImports.Command.Clock
import PhpImports.Diagnostic.Render
import PhpImports.Json
import PhpImports.Report

/-!
# Printed reports

Each report has a form for reading and a form in JSON, whose fields stand in the order of their
keys. Offsets are printed as they are, lines and columns count from one. A run that meets a fault
stops there and leaves behind what it has printed.
-/

namespace PhpImports

/-- What a run leaves behind. -/
structure Outcome where
  exitCode : UInt32 := 0
  stdout : Text := []
  stderr : Text := []
deriving DecidableEq, Repr, Inhabited

namespace Outcome

/-- The exit code of a run that stops at a fault. -/
def faultCode : UInt32 := 101

/-- A fault. Its words on standard error are left out. -/
def faulted : Outcome := { exitCode := faultCode }

/-- The output of one run and then another, which does not start behind a fault. The exit code is
the later one. -/
def andThen (a b : Outcome) : Outcome :=
  if a.exitCode = faultCode then a else ⟨b.exitCode, a.stdout ++ b.stdout, a.stderr ++ b.stderr⟩

/-- What is printed of a result. -/
def ofResult {α : Type} (print : α → Outcome) : Cursor.Result α → Outcome
  | .ok a => print a
  | .error _ => faulted

end Outcome

/-- Lines as printed, each with a line feed after it. -/
def Text.endLines (ls : List Text) : Text :=
  ls.flatMap (· ++ ['\n'])

/-- Line feeds, tabs and carriage returns as a backslash and a letter. -/
def Text.visible (s : Text) : Text :=
  s.flatMap fun c =>
    if c = '\n' then ['\\', 'n']
    else if c = '\t' then ['\\', 't']
    else if c = '\r' then ['\\', 'r']
    else [c]

namespace Piece

/-- Kind, span and characters of a token, with tabs between. -/
def line (p : Piece) : Text :=
  p.kind.name ++ '\t' :: Text.ofNat p.span.start.toNat ++ "..".toList ++
    Text.ofNat p.span.stop.toNat ++ '\t' :: p.text.visible

def json (p : Piece) : Json :=
  .obj [("end".toList, .num p.span.stop.toNat), ("kind".toList, .str p.kind.name),
    ("start".toList, .num p.span.start.toNat), ("text".toList, .str p.text)]

end Piece

namespace Source

def spanJson (source : Source) (span : Span) : Cursor.Result Json := do
  let (line, column) ← source.lineTable.lineCol span.start
  return .obj [("column".toList, .num (column + 1).toNat), ("end".toList, .num span.stop.toNat),
    ("line".toList, .num (line + 1).toNat), ("start".toList, .num span.start.toNat)]

def noteJson (source : Source) (n : Note) : Cursor.Result Json := do
  let span ← source.spanJson n.span
  return .obj [("message".toList, .str n.message), ("span".toList, span)]

def spanJson? (source : Source) : Option Span → Cursor.Result Json
  | some span => source.spanJson span
  | none => .ok .null

def diagnosticJson (source : Source) (d : Diagnostic) : Cursor.Result Json := do
  let labels ← d.notes.mapM source.noteJson
  let span ← source.spanJson? d.span
  return .obj [("code".toList, .ofOption .str d.code), ("file".toList, .str source.name),
    ("help".toList, .ofOption .str d.help), ("labels".toList, .arr labels),
    ("message".toList, .str d.message), ("severity".toList, .str d.severity.name),
    ("span".toList, span)]

/-- A diagnostic goes to standard output as JSON and to standard error otherwise. -/
def printDiagnostic (source : Source) (json : Bool) (d : Diagnostic) : Outcome :=
  if json then
    .ofResult (fun v => { stdout := Text.endLines [v.compact] }) (source.diagnosticJson d)
  else .ofResult (fun text => { stderr := Text.endLines [text] }) (d.rendered source)

def printDiagnostics (source : Source) (json : Bool) (ds : List Diagnostic) : Outcome :=
  (ds.map (source.printDiagnostic json)).foldr .andThen {}

end Source

namespace AliasTable

def lines (t : AliasTable) : List Text :=
  t.sorted.map fun e => e.1 ++ " => ".toList ++ e.2

def json (t : AliasTable) : Json :=
  .obj (t.sorted.map fun e => (e.1, .str e.2))

end AliasTable

namespace ImportReport

def json (r : ImportReport) (diagnostics timing : Bool) (clock : Clock) : Cursor.Result Json := do
  let shown ← (if diagnostics then r.diagnostics else []).mapM r.source.diagnosticJson
  return .obj <|
    [("diagnostics".toList, .arr shown), ("file".toList, .str r.source.name)] ++
    (if timing then [("timing".toList, clock.json)] else []) ++
    [("uses".toList, r.table.json)]

end ImportReport
end PhpImports

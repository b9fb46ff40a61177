import PhpImports.Command.Invocation
import PhpImports.Command.Output

/-!
# Runs

A run ends with exit code 2, and with nothing on standard output, if the command line is refused or
the file cannot be read. Otherwise it ends with 0, except that a check ends with 1 if the text holds
an error, and that a run stops at a fault of looking up a place.
-/

namespace PhpImports

namespace Outcome

def refused (ls : List Text) : Outcome :=
  { exitCode := 2, stderr := Text.endLines ls }

end Outcome

namespace Flags

def printTokens (f : Flags) (r : TokenReport) : Outcome :=
  let printed := if f.json then r.pieces.map (·.json.compact) else r.pieces.map (·.line)
  { stdout := Text.endLines printed : Outcome }.andThen
    (r.source.printDiagnostics f.json (if f.noDiags then [] else r.diagnostics))

def printUses (f : Flags) (clock : Clock) (r : ImportReport) : Outcome :=
  if f.json then
    .ofResult (fun v => { stdout := Text.endLines [v.compact] })
      (r.json (!f.noDiags) f.timing clock)
  else
    ({ stdout := Text.endLines r.table.lines : Outcome }.andThen
      (r.source.printDiagnostics false (if f.noDiags then [] else r.diagnostics))).andThen
      { stderr := Text.endLines (if f.timing then [clock.line] else []) }

def printCheck (f : Flags) (r : ImportReport) : Outcome :=
  (r.source.printDiagnostics f.json r.diagnostics).andThen
    { exitCode := if r.diagnostics.any (·.isError) then 1 else 0 }

end Flags

namespace Invocation

def report (i : Invocation) (clock : Clock) (source : Source) : Outcome :=
  match i.command with
  | .tokens => i.flags.printTokens (.ofSource i.flags.shortTags source)
  | .uses => i.flags.printUses clock (.ofSource i.flags.shortTags source)
  | .check => i.flags.printCheck (.ofSource i.flags.shortTags source)

/-- The outcome for what is found at the path of the invocation. -/
def outcome (i : Invocation) (clock : Clock) (found : Found) : Outcome :=
  match Source.ofFound i.path found with
  | .ok source => i.report clock source
  | .error e => .refused [e.message]

end Invocation

/-- The run of a command line on a file system, with the times that its clock measures. -/
def run (fs : FileSystem) (args : List Text) (clock : Clock := .masked) : Outcome :=
  match Invocation.parse args with
  | .ok i => i.outcome clock (fs i.path)
  | .error e => .refused e.lines

end PhpImports

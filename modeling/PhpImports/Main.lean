import PhpImports.Command.Run

/-!
# The command line

Reads the one file that an invocation names, and prints the outcome.
-/

namespace PhpImports

/-- The system's number and words for an error. -/
def systemError : IO.Error → UInt32 × String
  | .alreadyExists _ code text | .otherError code text | .resourceBusy code text
  | .resourceVanished code text | .unsupportedOperation code text | .hardwareFault code text
  | .unsatisfiedConstraints code text | .illegalOperation code text | .protocolError code text
  | .timeExpired code text | .interrupted _ code text | .noFileOrDirectory _ code text
  | .invalidArgument _ code text | .permissionDenied _ code text | .resourceExhausted _ code text
  | .inappropriateType _ code text | .noSuchThing _ code text => (code, text)
  | .unexpectedEof => (0, "unexpected end of file")
  | .userError text => (0, text)

/-- A path is asked for its kind before it is read, and an empty one has none. -/
def isDirectory (path : Text) : IO Bool := do
  if path = [] then return false
  (IO.FS.DirEntry.mk "." (String.ofList path)).path.isDir

def findOnDisk (path : Text) : IO Found := do
  if ← isDirectory path then return .directory
  try
    let handle ← IO.FS.Handle.mk (String.ofList path) .read
    return .file (← handle.readBinToEnd).toList
  catch e =>
    let (code, text) := systemError e
    return .unreadable (text ++ " (os error " ++ toString code ++ ")").toList

/-- What a function gives, and the microseconds that it takes. -/
def timed {α : Type} (f : Unit → α) : IO (α × Nat) := do
  let before ← IO.monoNanosNow
  let a ← IO.lazyPure f
  return (a, ((← IO.monoNanosNow) - before) / 1000)

/-- The times of reading a source for imports, if an invocation asks for them. -/
def measure (i : Invocation) (found : Found) : IO Clock := do
  match Source.ofFound i.path found, i.flags.timing with
  | .ok source, true =>
    let (lexing, lex) ← timed fun _ => source.text.lex i.flags.shortTags
    let (_, scan) ← timed fun _ =>
      FileImports.ofPieces (skipOpening (lexing.readIn source.text))
    return .measured lex scan
  | _, _ => return .masked

def finish (o : Outcome) : IO UInt32 := do
  IO.print (String.ofList o.stdout)
  IO.eprint (String.ofList o.stderr)
  return o.exitCode

end PhpImports

open PhpImports in
def main (args : List String) : IO UInt32 := do
  match Invocation.parse (args.map String.toList) with
  | .ok i =>
    let found ← findOnDisk i.path
    finish (i.outcome (← measure i found) found)
  | .error e => finish (.refused e.lines)

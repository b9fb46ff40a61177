import PhpImports.Source
import PhpImports.Text.Decode
import PhpImports.Text.LineEnding

/-!
# Reading sources

What a file system holds at a path is a file, a directory or a reason why there is nothing to read.
Only a file becomes a source, whatever its bytes are; its text is decoded and its line endings are
unified.
-/

namespace PhpImports

/-- What is found at a path. -/
inductive Found where
  | file (bytes : List UInt8)
  | directory
  /-- The system's words for why it cannot be read. -/
  | unreadable (reason : Text)
deriving DecidableEq, Repr, Inhabited

abbrev FileSystem := Text → Found

inductive ReadFailure where
  | directory (path : Text)
  | unreadable (path reason : Text)
deriving DecidableEq, Repr, Inhabited

namespace ReadFailure

def path : ReadFailure → Text
  | .directory path => path
  | .unreadable path _ => path

def message : ReadFailure → Text
  | .directory path => "Failed read file \"".toList ++ path ++ "\".".toList
  | .unreadable _ reason => reason

/-- The system gave a reason. -/
def hasReason : ReadFailure → Bool
  | .directory _ => false
  | .unreadable _ _ => true

end ReadFailure

namespace Source

def ofText (name text : Text) : Source :=
  ⟨name, text.unifyLineEndings⟩

def ofFound (path : Text) : Found → Except ReadFailure Source
  | .file bytes => .ok (ofText path (Text.decode bytes))
  | .directory => .error (.directory path)
  | .unreadable reason => .error (.unreadable path reason)

def read (fs : FileSystem) (path : Text) : Except ReadFailure Source :=
  ofFound path (fs path)

end Source
end PhpImports

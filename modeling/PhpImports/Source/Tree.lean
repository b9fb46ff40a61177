import PhpImports.Source.Read
import PhpImports.Text.Bytes

/-!
# Directory trees

A tree holds the files and directories below a working directory, and answers a path as a file
system does: component by component, each looked up in a directory. Of the directories outside the
tree only their existence is known.
-/

namespace PhpImports

inductive Tree.Entry where
  | file (bytes : List UInt8)
  | directory
deriving DecidableEq, Repr, Inhabited

/-- Entries by the components of their paths, the latest first; the first one of a path counts. -/
structure Tree where
  entries : List (List Text × Tree.Entry) := []
deriving Inhabited

namespace Tree

inductive LookupError where
  | notFound
  | notDirectory
  | nameTooLong
  | nulInPath
deriving DecidableEq, Repr

def LookupError.reason : LookupError → Text
  | .notFound => "No such file or directory (os error 2)".toList
  | .notDirectory => "Not a directory (os error 20)".toList
  | .nameTooLong => "File name too long (os error 36)".toList
  | .nulInPath => "file name contained an unexpected NUL byte".toList

/-- The most bytes that a component of a path can have. -/
def maxComponent : Nat := 255

/-- The most bytes that a path can have. -/
def maxPath : Nat := 4095

/-- The components of a path. There is an empty one after a slash at its end. -/
def components (path : Text) : List Text :=
  path.splitOn '/'

def add (t : Tree) (path : Text) (e : Entry) : Tree :=
  ⟨((components path).filter (· ≠ []), e) :: t.entries⟩

/-- The entry at a path. The directories above an entry exist with it. -/
def entry? (t : Tree) (path : List Text) : Option Entry :=
  (t.entries.lookup path).or
    (if path = [] ∨ t.entries.any (path.isPrefixOf ·.1) then some .directory else none)

/-- A place on the way along a path. -/
inductive Place where
  | inside (path : List Text) (e : Entry)
  /-- A directory outside the tree. -/
  | outside
deriving Repr

/-- The directory above the one at this path. -/
def parent : List Text → Place
  | [] => .outside
  | path => .inside path.dropLast .directory

/-- The place that one component leads to. -/
def step (t : Tree) (place : Place) (component : Text) : Except LookupError Place :=
  match place with
  | .inside _ (.file _) => .error .notDirectory
  | .inside path .directory =>
    if component = [] ∨ component = ['.'] then .ok place
    else if component = ['.', '.'] then .ok (parent path)
    else if maxComponent < component.size then .error .nameTooLong
    else match t.entry? (path ++ [component]) with
      | some e => .ok (.inside (path ++ [component]) e)
      | none => .error .notFound
  | .outside =>
    if component = [] ∨ component = ['.'] ∨ component = ['.', '.'] then .ok .outside
    else if maxComponent < component.size then .error .nameTooLong
    else .error .notFound

def resolve (t : Tree) (path : Text) : Except LookupError Place :=
  if path.contains '\x00' then .error .nulInPath
  else if path = [] then .error .notFound
  else if maxPath < path.size then .error .nameTooLong
  else
    let start := if path.head? = some '/' then .outside else .inside [] .directory
    (components path).foldlM t.step start

/-- The tree as a file system. -/
def find (t : Tree) (path : Text) : Found :=
  match t.resolve path with
  | .ok (.inside _ (.file bytes)) => .file bytes
  | .ok (.inside _ .directory) | .ok .outside => .directory
  | .error e => .unreadable e.reason

end Tree
end PhpImports

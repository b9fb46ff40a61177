import PhpImports.Cursor.Cut

/-!
# Line tables

The lines of a text are looked up by offsets of 32 bits: a table holds the offsets where lines
start, a search by halves finds the last one that is not past an offset, and the column is counted
in what is cut out between the two. Lines and columns count from zero, and a column counts
characters. In a text of 2 ^ 32 bytes or more the entries wrap around, and a cut can be at fault.
-/

namespace PhpImports.Cursor

/-- The index of the key between `lo` and `hi`, or else the one where it would be put in. -/
def search (xs : List UInt32) (key : UInt32) (lo hi : Nat) (hhi : hi ≤ xs.length) :
    Except Nat Nat :=
  if _ : lo < hi then
    let mid := lo + (hi - lo) / 2
    have hmid : mid < xs.length := by omega
    if xs[mid] = key then .ok mid
    else if xs[mid] < key then search xs key (mid + 1) hi hhi
    else search xs key lo mid (Nat.le_of_lt hmid)
  else .error lo
termination_by hi - lo

/-- Back from an offset to where a character starts, at `start` at the latest. -/
def floor (s : Text) (start : Nat) : Nat → Nat
  | 0 => 0
  | n + 1 => if start < n + 1 ∧ s.dropBytes? (n + 1) = none then floor s start n else n + 1

/-- A text with the offsets where its lines start. -/
structure LineTable where
  text : Text
  starts : List UInt32

namespace LineTable

def ofText (s : Text) : LineTable where
  text := s
  starts := 0 :: s.bytes.zipIdx.filterMap fun p =>
    if p.1 = 10 then some (p.2 + 1).toUInt32 else none

/-- The start of the line with this number, which has to be there. -/
def start (t : LineTable) (line : Nat) : Result UInt32 :=
  match t.starts[line]? with
  | some i => .ok i
  | none => .error .outOfRange

/-- The end of the line with this number: in front of the line feed before the next line, or where
the text ends. -/
def stop (t : LineTable) (line : Nat) : Nat :=
  match t.starts[line + 1]? with
  | some next => next.toNat - 1
  | none => t.text.size

/-- The number of the line that holds an offset. -/
def lineOf (t : LineTable) (byte : UInt32) : Nat :=
  match search t.starts byte 0 t.starts.length (Nat.le_refl _) with
  | .ok i => i
  | .error i => i - 1

/-- The line and the column of an offset. -/
def lineCol (t : LineTable) (byte : UInt32) : Result (UInt32 × UInt32) := do
  let byte := min byte t.text.size.toUInt32
  let line := t.lineOf byte
  let start ← t.start line
  let before ← textBetween t.text start.toNat (floor t.text start.toNat byte.toNat)
  return (line.toUInt32, before.length.toUInt32)

/-- The line that holds an offset, without its line feed. -/
def lineText (t : LineTable) (byte : UInt32) : Result Text := do
  let (line, _) ← t.lineCol byte
  let start ← t.start line.toNat
  textBetween t.text start.toNat (t.stop line.toNat)

end LineTable

end PhpImports.Cursor

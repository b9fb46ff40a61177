import PhpImports.Text.Bytes

/-!
# Cuts at byte offsets

A text is cut at offsets into its bytes. A cut can miss the text or fall inside a character, a
counter can leave its range, and a loop can come back to where it was; each of these is a fault, and
a run that meets one stops there.
-/

namespace PhpImports.Cursor

inductive Fault where
  /-- An offset past the end, or a range that ends before it starts. -/
  | outOfRange
  /-- An offset inside a character. -/
  | splitCharacter
  | depthOverflow
  | depthUnderflow
  /-- A round of a loop that takes nothing or yields nothing. -/
  | idle
deriving DecidableEq, Repr

abbrev Result := Except Fault

/-- The text from `i` on. -/
def textFrom (s : Text) (i : Nat) : Result Text :=
  if s.size < i then .error .outOfRange
  else match s.dropBytes? i with
    | some r => .ok r
    | none => .error .splitCharacter

/-- The text from `i` to `j`. -/
def textBetween (s : Text) (i j : Nat) : Result Text :=
  if j < i ∨ s.size < j then .error .outOfRange
  else match (s.dropBytes? i).bind (Text.takeBytes? (j - i)) with
    | some t => .ok t
    | none => .error .splitCharacter

end PhpImports.Cursor

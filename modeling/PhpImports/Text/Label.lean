import PhpImports.Text.Basic

/-!
# Labels

A label starts with a letter, an underscore or any non-ASCII character and goes on with those and
with digits. Names are labels joined by single separators.
-/

namespace PhpImports

def isLabelStart (c : Char) : Bool :=
  c = '_' || c.isAlpha || 128 ≤ c.toNat

def isLabelChar (c : Char) : Bool :=
  isLabelStart c || c.isDigit

/-- The character between the labels of a name. -/
def separator : Char := '\\'

namespace Text

/-- A label can start here. -/
def startsLabel : Text → Bool
  | [] => false
  | c :: _ => isLabelStart c

/-- A name that has begun goes on here: with a character of its label, or with a separator and the
start of the next label. -/
def continuesName : Text → Bool
  | [] => false
  | c :: r => isLabelChar c || (c = separator && startsLabel r)

theorem startsLabel_eq_any (s : Text) : s.startsLabel = s.head?.any isLabelStart := by
  cases s <;> rfl

end Text

theorem isLabelChar_of_isLabelStart {c : Char} (h : isLabelStart c = true) :
    isLabelChar c = true := by
  simp [isLabelChar, h]

end PhpImports

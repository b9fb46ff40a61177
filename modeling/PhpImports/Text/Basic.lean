/-!
# Texts

A text is a list of characters: source texts, names, messages and printed output alike. Reading
goes from the left and hands on what is left to read, so a position is the list that remains.
-/

namespace PhpImports

/-- A text as the list of its characters. -/
abbrev Text := List Char

/-- Spaces and tabs, the blanks that keep to a line. -/
def isIndent (c : Char) : Bool :=
  c = ' ' || c = '\t'

/-- Spaces, tabs and the characters of line endings. -/
def isBlank (c : Char) : Bool :=
  isIndent c || c = '\n' || c = '\r'

/-- The ASCII characters that are neither letters, digits, blanks nor controls. -/
def isAsciiPunctuation (c : Char) : Bool :=
  '!' ≤ c && c ≤ '~' && !c.isAlphanum

namespace Text

def startsWith (s pattern : Text) : Bool :=
  pattern.isPrefixOf s

/-- ASCII letters in lower case, every other character as it is. -/
def toLower (s : Text) : Text :=
  s.map Char.toLower

/-- The order of code points: the first characters that differ decide, and a text comes before every
longer one that starts with it. -/
def le : Text → Text → Bool
  | [], _ => true
  | _ :: _, [] => false
  | a :: s, b :: t => if a = b then le s t else a < b

theorem startsWith_iff {s pattern : Text} :
    s.startsWith pattern = true ↔ ∃ r, s = pattern ++ r := by
  rw [startsWith, List.isPrefixOf_iff_prefix]
  exact ⟨fun ⟨r, h⟩ => ⟨r, h.symm⟩, fun ⟨r, h⟩ => ⟨r, h.symm⟩⟩

@[simp] theorem startsWith_nil (s : Text) : s.startsWith [] = true := by
  cases s <;> rfl

@[simp] theorem nil_startsWith_cons (k : Char) (ks : Text) : startsWith [] (k :: ks) = false := rfl

@[simp] theorem cons_startsWith_cons (c k : Char) (r ks : Text) :
    startsWith (c :: r) (k :: ks) = (decide (c = k) && r.startsWith ks) := by
  by_cases h : c = k
  · simp [startsWith, h]
  · have hne : (k == c) = false := beq_false_of_ne (Ne.symm h)
    simp [startsWith, List.isPrefixOf, h, hne]

end Text
end PhpImports

import PhpImports.Lexeme.Basic
import PhpImports.Lexeme.Keyword
import PhpImports.Text.Label

/-!
# Names

A name is read as one run of label characters and separators, each separator followed by the start
of a label. Its kind is read off the characters: a name with separators is qualified, or relative if
its first label is the word for the current namespace, and a single label is a reserved word or an
identifier. Behind a member access every single label is an identifier.
-/

namespace PhpImports.Lexeme

/-- The kind of a name that starts with a label. -/
def nameKind (afterAccess : Bool) (name : Text) : TokenKind :=
  if name.contains separator then
    if Text.toLower (name.takeWhile (· ≠ separator)) = "namespace".toList then .nameRelative
    else .nameQualified
  else if afterAccess then .ident
  else (Keyword.kind? name).getD .ident

/-- The characters of the name that a text starts with, and the text after it. -/
def nameRun (s : Text) : Text × Text :=
  Text.breakAt (fun t => !Text.continuesName t) s

def name (afterAccess : Bool) (s : Text) : Lexeme × Text :=
  let (taken, rest) := nameRun s
  ({ kind := nameKind afterAccess taken, text := taken }, rest)

def fullyQualifiedName (s : Text) : Lexeme × Text :=
  let (taken, rest) := nameRun s
  ({ kind := .nameFullyQualified, text := taken }, rest)

theorem nameRun_append (s : Text) : (nameRun s).1 ++ (nameRun s).2 = s :=
  Text.breakAt_append _ s

theorem nameRun_ne_nil {c : Char} {r : Text} (h : Text.continuesName (c :: r) = true) :
    (nameRun (c :: r)).1 ≠ [] :=
  Text.breakAt_ne_nil (by simp [h])

theorem name_splits {afterAccess : Bool} {c : Char} {r : Text} (h : isLabelStart c = true) :
    Splits (c :: r) (name afterAccess (c :: r)) :=
  ⟨nameRun_append (c :: r),
    nameRun_ne_nil (by simp [Text.continuesName, isLabelChar_of_isLabelStart h])⟩

theorem fullyQualifiedName_splits {r : Text} (h : Text.startsLabel r = true) :
    Splits (separator :: r) (fullyQualifiedName (separator :: r)) :=
  ⟨nameRun_append (separator :: r), nameRun_ne_nil (by simp [Text.continuesName, h])⟩

end PhpImports.Lexeme

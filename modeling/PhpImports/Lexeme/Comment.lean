import PhpImports.Lexeme.Basic

/-!
# Comments

A line comment ends before a line ending or a close tag. A block comment ends with the first closing
mark after its opening one; it documents the code if a second star and a blank follow the opening.
-/

namespace PhpImports.Lexeme

/-- A line comment ends before this place. -/
def endsLineComment : Text → Bool
  | [] => false
  | c :: r => c = '\n' || c = '\r' || c = '?' && r.head? = some '>'

def lineComment (s : Text) : Lexeme × Text :=
  upTo .comment endsLineComment s

/-- A comment whose text after the opening mark is `s` documents the code. -/
def isDocBody : Text → Bool
  | '*' :: c :: _ => isBlank c
  | _ => false

/-- The body of a block comment with its closing mark, and what comes after it. -/
def blockBody (s : Text) : Text × Option Text :=
  let (body, rest) := Text.breakAt (Text.startsWith · "*/".toList) s
  (body ++ rest.take 2, if rest = [] then none else some (rest.drop 2))

/-- The block comment that has `s` after its opening mark. -/
def blockComment (s : Text) : Lexeme × Text :=
  enclosed (if isDocBody s then .docComment else .comment) .unterminatedBlockComment
    "/*".toList (blockBody s)

theorem blockBody_append (s : Text) : (blockBody s).1 ++ (blockBody s).2.getD [] = s := by
  have h := Text.breakAt_append (Text.startsWith · "*/".toList) s
  unfold blockBody
  generalize Text.breakAt (Text.startsWith · "*/".toList) s = x at h ⊢
  obtain ⟨body, rest⟩ := x
  by_cases hr : rest = [] <;> simp_all

theorem blockComment_splits (s : Text) : Splits ("/*".toList ++ s) (blockComment s) :=
  enclosed_splits (blockBody_append s) (by decide)

end PhpImports.Lexeme

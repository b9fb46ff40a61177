import PhpImports.Lexeme.Comment
import PhpImports.Lexeme.Heredoc
import PhpImports.Lexeme.Name
import PhpImports.Lexeme.Number
import PhpImports.Lexeme.OpenTag
import PhpImports.Lexeme.Quoted

/-!
# Lexemes of code

The first character of a lexeme announces what it can be, and a few characters after it settle the
rest. A character that announces nothing is a lexeme of its own, and a fault.
-/

namespace PhpImports

/-- What the first character of a lexeme announces. -/
inductive Lead where
  | blank
  | slash
  | hash
  | question
  | minus
  | colon
  /-- A character that is a token of its own kind. -/
  | mark (kind : TokenKind)
  | dollar
  | quote
  | less
  | separator
  | dot
  | digit
  | label
  /-- An operator character that is never part of anything longer. -/
  | operator
  | stray
deriving DecidableEq, Repr

namespace Lead

/-- The characters that belong to no class of their own. -/
def symbols : List (Char × Lead) :=
  [('/', .slash), ('#', .hash), ('?', .question), ('-', .minus), (':', .colon), ('$', .dollar),
   ('<', .less), ('\\', .separator), ('.', .dot), ('\'', .quote), ('"', .quote), ('\x60', .quote),
   (';', .mark .semicolon), (',', .mark .comma), ('{', .mark .lBrace), ('}', .mark .rBrace),
   ('(', .mark .lParen), (')', .mark .rParen), ('[', .mark .lBracket), (']', .mark .rBracket),
   ('!', .operator), ('%', .operator), ('&', .operator), ('*', .operator), ('+', .operator),
   ('=', .operator), ('|', .operator), ('^', .operator), ('~', .operator), ('@', .operator),
   ('>', .operator)]

def of (c : Char) : Lead :=
  if isBlank c then .blank
  else if isLabelStart c then .label
  else if c.isDigit then .digit
  else (symbols.lookup c).getD .stray

/-- What is known of a character with this lead. -/
def Announced (c : Char) : Lead → Prop
  | .blank => isBlank c = true
  | .label => isLabelStart c = true
  | .digit => c.isDigit = true
  | .stray => symbols.lookup c = none
  | lead => (c, lead) ∈ symbols

theorem mem_of_lookup {α β : Type} [BEq α] [LawfulBEq α] {l : List (α × β)} {a : α} {b : β}
    (h : l.lookup a = some b) : (a, b) ∈ l := by
  obtain ⟨l₁, l₂, rfl, -⟩ := List.lookup_eq_some_iff.1 h
  simp

theorem announced_of (c : Char) : Announced c (of c) := by
  unfold of
  split
  · assumption
  · split
    · assumption
    · split
      · assumption
      · cases h : symbols.lookup c with
        | none => exact h
        | some lead =>
          have hm := mem_of_lookup h
          cases lead with
          | blank | label | digit | stray => exact absurd hm (by simp [symbols])
          | _ => exact hm

end Lead

namespace Lexeme

/-- The length of a close tag, which takes a line ending with it, before the text `s`. -/
def closeTagLength : Text → Nat
  | '\n' :: _ => 3
  | '\r' :: '\n' :: _ => 4
  | _ => 2

/-- The variable that has `s` after its dollar sign. -/
def variableName (s : Text) : Lexeme × Text :=
  ({ kind := .variable, text := '$' :: s.takeWhile isLabelChar }, s.dropWhile isLabelChar)

/-- In code: the lexeme that starts with `c`, `r` being the text after that character. -/
def ofCode (afterAccess : Bool) (c : Char) (r : Text) : Lexeme × Text :=
  match Lead.of c with
  | .blank => run .whitespace isBlank (c :: r)
  | .slash =>
    if r.head? = some '/' then lineComment (c :: r)
    else if r.head? = some '*' then blockComment (r.drop 1)
    else cut .punct 1 (c :: r)
  | .hash => if r.head? = some '[' then cut .attribute 2 (c :: r) else lineComment (c :: r)
  | .question =>
    if r.head? = some '>' then cut .closeTag (closeTagLength (r.drop 1)) (c :: r)
    else if Text.startsWith r "->".toList then cut .nullsafeArrow 3 (c :: r)
    else cut .punct 1 (c :: r)
  | .minus => if r.head? = some '>' then cut .arrow 2 (c :: r) else cut .punct 1 (c :: r)
  | .colon => if r.head? = some ':' then cut .doubleColon 2 (c :: r) else cut .punct 1 (c :: r)
  | .mark kind => cut kind 1 (c :: r)
  | .dollar => if Text.startsLabel r then variableName r else cut .punct 1 (c :: r)
  | .quote => quoted c r
  | .less =>
    match if Text.startsWith r "<<".toList then heredoc? (r.drop 2) else none with
    | some lexeme => lexeme
    | none => cut .punct 1 (c :: r)
  | .separator =>
    if Text.startsLabel r then fullyQualifiedName (c :: r) else cut .nsSeparator 1 (c :: r)
  | .dot => if r.head?.any Char.isDigit then number (c :: r) else cut .punct 1 (c :: r)
  | .digit => number (c :: r)
  | .label => name afterAccess (c :: r)
  | .operator => cut .punct 1 (c :: r)
  | .stray => ({ kind := .unknown, text := [c], fault := some (.unexpectedChar c) }, r)

theorem closeTagLength_ne_zero (s : Text) : closeTagLength s ≠ 0 := by
  unfold closeTagLength
  split <;> decide

theorem ofCode_splits (afterAccess : Bool) (c : Char) (r : Text) :
    Splits (c :: r) (ofCode afterAccess c r) := by
  have hcut : ∀ {kind : TokenKind} {n : Nat}, n ≠ 0 → Splits (c :: r) (cut kind n (c :: r)) :=
    fun hn => cut_splits hn (by simp)
  have hlead := Lead.announced_of c
  unfold ofCode
  generalize Lead.of c = lead at hlead
  cases lead with simp only [Lead.Announced] at hlead ⊢
  | blank => exact run_splits hlead
  | slash =>
    obtain rfl : c = '/' := by simpa [Lead.symbols] using hlead
    split
    · exact upTo_splits (by simp [endsLineComment])
    · split
      · next h =>
        obtain ⟨t, rfl⟩ := List.head?_eq_some_iff.1 h
        exact blockComment_splits t
      · exact hcut (by decide)
  | hash =>
    obtain rfl : c = '#' := by simpa [Lead.symbols] using hlead
    split
    · exact hcut (by decide)
    · exact upTo_splits (by simp [endsLineComment])
  | question =>
    split
    · exact hcut (closeTagLength_ne_zero _)
    · split <;> exact hcut (by decide)
  | minus => split <;> exact hcut (by decide)
  | colon => split <;> exact hcut (by decide)
  | mark kind => exact hcut (by decide)
  | dollar =>
    obtain rfl : c = '$' := by simpa [Lead.symbols] using hlead
    split
    · exact ⟨by simp [variableName], by simp [variableName]⟩
    · exact hcut (by decide)
  | quote => exact quoted_splits c r
  | less =>
    obtain rfl : c = '<' := by simpa [Lead.symbols] using hlead
    split
    · next x h =>
      split at h
      · next hr =>
        obtain ⟨t, rfl⟩ := Text.startsWith_iff.1 hr
        exact heredoc?_splits h
      · simp at h
    · exact hcut (by decide)
  | separator =>
    obtain rfl : c = '\\' := by simpa [Lead.symbols] using hlead
    split
    · next h => exact fullyQualifiedName_splits h
    · exact hcut (by decide)
  | dot =>
    obtain rfl : c = '.' := by simpa [Lead.symbols] using hlead
    split
    · next h => exact number_splits (Or.inr ⟨rfl, h⟩)
    · exact hcut (by decide)
  | digit => exact number_splits (Or.inl hlead)
  | label => exact name_splits hlead
  | operator => exact hcut (by decide)
  | stray => exact ⟨rfl, by simp⟩

end Lexeme
end PhpImports

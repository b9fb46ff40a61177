import PhpImports.Lexeme.Basic
import PhpImports.Text.Label

/-!
# Heredocs

A heredoc opens with three less-than signs, a label that may stand in quotes, and a line ending. It
closes with the first line after that, the one right below included, that starts with the label,
indented or not; the lexeme ends with that label. Text that only resembles an opener is none.
-/

namespace PhpImports.Lexeme

/-- The rest of a heredoc's first line, after the less-than signs. -/
structure HeredocOpener where
  indent : Text
  quote : Option Char
  label : Text
  lineEnding : Text
deriving DecidableEq, Repr

namespace HeredocOpener

def text (o : HeredocOpener) : Text :=
  "<<<".toList ++ o.indent ++ o.quote.toList ++ o.label ++ o.quote.toList ++ o.lineEnding

theorem text_eq (o : HeredocOpener) : o.text = "<<<".toList ++
    (o.indent ++ (o.quote.toList ++ (o.label ++ (o.quote.toList ++ o.lineEnding)))) := by
  have htext : o.text = "<<<".toList ++ o.indent ++ o.quote.toList ++ o.label ++ o.quote.toList ++
      o.lineEnding := rfl
  simp only [htext, List.append_assoc]

/-- The quote that a text starts with and the text after it. -/
def readQuote : Text → Option Char × Text
  | [] => (none, [])
  | c :: r => if c = '\'' ∨ c = '"' then (some c, r) else (none, c :: r)

/-- The text after the quote that was opened. -/
def readClosingQuote? : Option Char → Text → Option Text
  | none, s => some s
  | some _, [] => none
  | some q, c :: r => if c = q then some r else none

/-- A line ending without a lone CR, and the text after it. -/
def readLineEnding? : Text → Option (Text × Text)
  | '\n' :: r => some (['\n'], r)
  | '\r' :: '\n' :: r => some (['\r', '\n'], r)
  | _ => none

/-- The opener after the less-than signs, and the text below it. -/
def read? (s : Text) : Option (HeredocOpener × Text) :=
  let (quote, s') := readQuote (s.dropWhile isIndent)
  if Text.startsLabel s' then
    match readClosingQuote? quote (s'.dropWhile isLabelChar) with
    | none => none
    | some s'' =>
      match readLineEnding? s'' with
      | none => none
      | some (lineEnding, body) =>
        some (⟨s.takeWhile isIndent, quote, s'.takeWhile isLabelChar, lineEnding⟩, body)
  else none

theorem readQuote_append (s : Text) : (readQuote s).1.toList ++ (readQuote s).2 = s := by
  unfold readQuote
  split
  · rfl
  · split <;> rfl

theorem readClosingQuote?_append {quote : Option Char} {s r : Text}
    (h : readClosingQuote? quote s = some r) : quote.toList ++ r = s := by
  cases quote with
  | none =>
    rw [readClosingQuote?] at h
    cases h
    rfl
  | some q =>
    cases s with
    | nil => cases h
    | cons c t =>
      rw [readClosingQuote?] at h
      split at h
      · next hc =>
        cases h
        rw [hc]
        rfl
      · cases h

theorem readLineEnding?_append {s e r : Text} (h : readLineEnding? s = some (e, r)) :
    e ++ r = s := by
  rw [readLineEnding?.eq_def] at h
  split at h
  · cases h
    rfl
  · cases h
    rfl
  · cases h

theorem read?_append {s body : Text} {o : HeredocOpener} (h : read? s = some (o, body)) :
    o.text ++ body = "<<<".toList ++ s := by
  unfold read? at h
  have hq := readQuote_append (s.dropWhile isIndent)
  generalize readQuote (s.dropWhile isIndent) = x at h hq
  obtain ⟨quote, s'⟩ := x
  simp only at h hq
  split at h
  · split at h
    · simp at h
    · next s'' hs =>
      split at h
      · simp at h
      · next e r he =>
        simp only [Option.some.injEq, Prod.mk.injEq] at h
        obtain ⟨rfl, rfl⟩ := h
        simp only [text_eq, List.append_assoc, readLineEnding?_append he,
          readClosingQuote?_append hs, List.takeWhile_append_dropWhile, hq]
  · simp at h

end HeredocOpener

/-- The line that starts here closes a heredoc of this label. -/
def closesHeredoc (label s : Text) : Bool :=
  let line := s.dropWhile isIndent
  Text.startsWith line label && !((line.drop label.length).head?.any isLabelChar)

/-- The text from the start of a line on, up to the line that closes the heredoc. -/
def heredocLines (label s : Text) : Text × Text :=
  go [] true s
where
  /-- `seen` holds the characters already read, the last one first. -/
  go (seen : Text) (atLineStart : Bool) : Text → Text × Text
    | [] => (seen.reverse, [])
    | c :: r =>
      if atLineStart && closesHeredoc label (c :: r) then (seen.reverse, c :: r)
      else go (c :: seen) (c = '\n') r

/-- The body of a heredoc with its closing label, and what comes after it. -/
def heredocBody (label s : Text) : Text × Option Text :=
  let (body, rest) := heredocLines label s
  let closing := (rest.takeWhile isIndent).length + label.length
  (body ++ rest.take closing, if rest = [] then none else some (rest.drop closing))

/-- The heredoc that has `s` after its less-than signs, if this is one. -/
def heredoc? (s : Text) : Option (Lexeme × Text) :=
  (HeredocOpener.read? s).map fun (opener, body) =>
    enclosed .heredoc (.unterminatedHeredoc opener.label) opener.text
      (heredocBody opener.label body)

theorem heredocLines_go_append (label seen : Text) (atLineStart : Bool) (s : Text) :
    (heredocLines.go label seen atLineStart s).1 ++ (heredocLines.go label seen atLineStart s).2 =
      seen.reverse ++ s := by
  induction s generalizing seen atLineStart with
  | nil => simp [heredocLines.go]
  | cons c r ih =>
    rw [heredocLines.go]
    split
    · rfl
    · simp [ih]

theorem heredocBody_append (label s : Text) :
    (heredocBody label s).1 ++ (heredocBody label s).2.getD [] = s := by
  have h := heredocLines_go_append label [] true s
  unfold heredocBody heredocLines
  generalize heredocLines.go label [] true s = x at h ⊢
  obtain ⟨body, rest⟩ := x
  by_cases hr : rest = [] <;> simp_all

theorem heredoc?_splits {s : Text} {x : Lexeme × Text} (h : heredoc? s = some x) :
    Splits ("<<<".toList ++ s) x := by
  obtain ⟨⟨opener, body⟩, ho, rfl⟩ := Option.map_eq_some_iff.1 h
  rw [← HeredocOpener.read?_append ho]
  exact enclosed_splits (heredocBody_append _ _) (by simp [HeredocOpener.text_eq])

end PhpImports.Lexeme

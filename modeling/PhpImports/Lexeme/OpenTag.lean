import PhpImports.Lexeme.Basic

/-!
# Open tags

Code starts at an open tag. The long tag is spelt in any case, has to be followed by a blank or by
the end of the text, and takes one line ending, space or tab with it; the echo tag always counts,
and a bare tag counts if short tags are on.
-/

namespace PhpImports.Lexeme

/-- The kind and the length of the open tag that a text starts with. -/
def openTag? (shortTags : Bool) : Text → Option (TokenKind × Nat)
  | '<' :: '?' :: r =>
    let short := if shortTags then some (.openTag, 2) else none
    if r.head? = some '=' then some (.openTagWithEcho, 3)
    else if Text.toLower (r.take 3) = "php".toList then
      match r.drop 3 with
      | [] => some (.openTag, 5)
      | '\r' :: '\n' :: _ => some (.openTag, 7)
      | c :: _ => if isBlank c then some (.openTag, 6) else short
    else short
  | _ => none

/-- Outside code: an open tag, or all the text before the next one. -/
def ofHtml (shortTags : Bool) (s : Text) : Lexeme × Text :=
  match openTag? shortTags s with
  | some (kind, n) => cut kind n s
  | none => upTo .inlineHtml (fun t => (openTag? shortTags t).isSome) s

theorem openTag?_eq_some {shortTags : Bool} {s : Text} {kind : TokenKind} {n : Nat}
    (h : openTag? shortTags s = some (kind, n)) : n ≠ 0 := by
  unfold openTag? at h
  grind

theorem ofHtml_splits (shortTags : Bool) (c : Char) (r : Text) :
    Splits (c :: r) (ofHtml shortTags (c :: r)) := by
  unfold ofHtml
  split
  · next h => exact cut_splits (openTag?_eq_some h) (by simp)
  · next h => exact upTo_splits (by simp [h])

end PhpImports.Lexeme

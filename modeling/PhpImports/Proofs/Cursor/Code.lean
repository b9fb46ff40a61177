import PhpImports.Lexeme.Code
import PhpImports.Proofs.Cursor.Comment
import PhpImports.Proofs.Cursor.Heredoc
import PhpImports.Proofs.Cursor.Number
import PhpImports.Proofs.Cursor.OpenTag

/-!
# Tokens of code at byte offsets

The character at an offset announces a token, the bytes after it decide on one, and the reader of
that token gives its end. Where a text goes on, some token starts and ends where the lexeme of the
rest does (`At.codeToken`). The only bound is on the text, for the sake of the counter of open
braces.
-/

namespace PhpImports.Cursor

/-- Past the line ending that a close tag takes with it, if one is at `i`. -/
def closeTagEnd (s : Text) (i : Nat) : Result Nat := do
  if ← sees s i "\r\n".toList then return i + 2
  if peek s i (· = '\n') then return i + 1
  return i

/-- The string whose opening quote is at `i`. -/
def stringLiteral (s : Text) (quote : Char) (i : Nat) : Result Ending := do
  let (closed, stop) ← skipQuoted s quote (i + 1)
  return ⟨.stringLiteral, stop, if closed then none else some .unterminatedString⟩

/-- The token of this kind whose characters are those of the mark, or the first of them alone. -/
def markToken (mark : List Char) (kind : TokenKind) (s : Text) (i : Nat) : Result Ending := do
  if ← sees s i mark then return ⟨kind, i + mark.length, none⟩
  return ⟨.punct, i + 1, none⟩

/-- The token that starts at `i`. No token starts where no character does. -/
def codeToken (afterAccess : Bool) (s : Text) (i : Nat) : Result Ending := do
  match charAt? s i with
  | none => throw .idle
  | some c =>
    match Lead.of c with
    | .blank => return ⟨.whitespace, skipBytes isBlank s i, none⟩
    | .slash =>
      if ← sees s i "//".toList then return ⟨.comment, ← skipLineComment s i, none⟩
      if ← sees s i "/*".toList then blockComment s i else return ⟨.punct, i + 1, none⟩
    | .hash =>
      if ← sees s i "#[".toList then return ⟨.attribute, i + 2, none⟩
      return ⟨.comment, ← skipLineComment s i, none⟩
    | .question =>
      if ← sees s i "?>".toList then return ⟨.closeTag, ← closeTagEnd s (i + 2), none⟩
      markToken "?->".toList .nullsafeArrow s i
    | .minus => markToken "->".toList .arrow s i
    | .colon => markToken "::".toList .doubleColon s i
    | .mark kind => return ⟨kind, i + 1, none⟩
    | .dollar =>
      if (charAt? s (i + 1)).any isLabelStart then
        return ⟨.variable, skipLabel s (i + 1), none⟩
      return ⟨.punct, i + 1, none⟩
    | .quote => stringLiteral s c i
    | .less =>
      if ← sees s i "<<<".toList then
        return (← heredoc? s i).getD ⟨.punct, i + 1, none⟩
      return ⟨.punct, i + 1, none⟩
    | .separator =>
      if (charAt? s (i + 1)).any isLabelStart then return fullyQualifiedName s i
      return ⟨.nsSeparator, i + 1, none⟩
    | .dot =>
      if (charAt? s (i + 1)).any Char.isDigit then number s i else return ⟨.punct, i + 1, none⟩
    | .digit => number s i
    | .label => name afterAccess s i
    | .operator => return ⟨.punct, i + 1, none⟩
    | .stray => return ⟨.unknown, i + c.utf8Size, some (.unexpectedChar c)⟩

theorem symbols_ascii : ∀ x ∈ Lead.symbols, x.1.toNat < 128 := by decide

theorem ending_cut {t : Text} (ht : IsAscii t) (kind : TokenKind) (i : Nat) (r : Text) :
    Ending.of i (Lexeme.cut kind t.length (t ++ r)).1 = ⟨kind, i + t.length, none⟩ := by
  rw [Ending.of, Lexeme.cut, List.take_left, size_ascii ht]

theorem ending_cut_one {c : Char} (hc : c.toNat < 128) (kind : TokenKind) (i : Nat) (r : Text) :
    Ending.of i (Lexeme.cut kind 1 (c :: r)).1 = ⟨kind, i + 1, none⟩ :=
  @ending_cut [c] (.cons hc (by decide)) kind i r

theorem startsWith_singleton (d : Char) (r : Text) :
    Text.startsWith r [d] = decide (r.head? = some d) := by
  cases r <;> simp

theorem startsWith_pair (c d : Char) (r : Text) :
    Text.startsWith (c :: r) [c, d] = decide (r.head? = some d) := by
  rw [Text.cons_startsWith_cons, decide_eq_true rfl, Bool.true_and, startsWith_singleton]

variable {s r : Text} {i : Nat}

/-- The line ending that a close tag takes with it. -/
theorem At.closeTagEnd (h : At s i r) : ∃ e t, r = e ++ t ∧ IsAscii e ∧
    Lexeme.closeTagLength r = 2 + e.length ∧ Cursor.closeTagEnd s i = .ok (i + e.length) := by
  rw [Cursor.closeTagEnd, h.sees (by decide), h.peek_eq (k := '\n')]
  rw [Lexeme.closeTagLength.eq_def]
  split
  · next t => exact ⟨['\n'], t, rfl, by decide, rfl, rfl⟩
  · next t => exact ⟨['\r', '\n'], t, rfl, by decide, rfl, rfl⟩
  · next hlf hcrlf =>
    refine ⟨[], r, rfl, by decide, rfl, ?_⟩
    have hnotCrlf : Text.startsWith r "\r\n".toList = false := by
      rw [Bool.eq_false_iff]
      intro hstart
      obtain ⟨t, rfl⟩ := Text.startsWith_iff.1 hstart
      exact hcrlf t rfl
    have hnotLf : ¬ r.head? = some '\n' := by
      intro hhead
      obtain ⟨t, rfl⟩ := List.head?_eq_some_iff.1 hhead
      exact hlf t rfl
    rw [hnotCrlf, decide_eq_false hnotLf]
    rfl

theorem At.stringLiteral {quote : Char} (h : At s i (quote :: r)) (hs : s.size < UInt32.size)
    (hq : quote.toNat < 128) :
    Cursor.stringLiteral s quote i = .ok (Ending.of i (Lexeme.quoted quote r).1) := by
  have hopener : Text.size [quote] = 1 := size_ascii (.cons hq (by decide))
  rw [Cursor.stringLiteral, (skips r).quoted (h.succ hq) hs quote hq, Lexeme.quoted,
    ending_enclosed, hopener]
  rfl

theorem At.markToken {c : Char} {mark : List Char} (h : At s i (c :: r))
    (hmark : IsAscii (c :: mark)) (kind : TokenKind) :
    Cursor.markToken (c :: mark) kind s i =
      .ok (Ending.of i (if Text.startsWith r mark then Lexeme.cut kind (mark.length + 1) (c :: r)
        else Lexeme.cut .punct 1 (c :: r)).1) := by
  rw [Cursor.markToken, h.sees hmark, Text.cons_startsWith_cons, decide_eq_true rfl, Bool.true_and]
  cases hstart : Text.startsWith r mark with
  | true =>
    obtain ⟨t, rfl⟩ := Text.startsWith_iff.1 hstart
    exact congrArg Except.ok (ending_cut hmark kind i t).symm
  | false =>
    have hc : IsAscii [c] := .cons (hmark c List.mem_cons_self) (by decide)
    exact congrArg Except.ok (ending_cut hc .punct i r).symm

theorem At.markPair {c d : Char} (h : At s i (c :: r)) (hmark : IsAscii [c, d])
    (kind : TokenKind) : Cursor.markToken [c, d] kind s i =
      .ok (Ending.of i (if r.head? = some d then Lexeme.cut kind 2 (c :: r)
        else Lexeme.cut .punct 1 (c :: r)).1) := by
  have htoken := h.markToken hmark kind
  simp only [startsWith_singleton, decide_eq_true_iff] at htoken
  exact htoken

section CodeToken

variable {afterAccess : Bool}

theorem At.codeToken_slash (h : At s i ('/' :: r)) :
    Cursor.codeToken afterAccess s i = .ok (Ending.of i (Lexeme.ofCode afterAccess '/' r).1) := by
  have hlead : Lead.of '/' = .slash := rfl
  have hline : Text.startsWith ('/' :: r) "//".toList = decide (r.head? = some '/') :=
    startsWith_pair '/' '/' r
  have hblock : Text.startsWith ('/' :: r) "/*".toList = decide (r.head? = some '*') :=
    startsWith_pair '/' '*' r
  rw [Cursor.codeToken, h.charAt?, Lexeme.ofCode]
  simp only [List.head?_cons, hlead]
  rw [h.sees (by decide), h.sees (by decide), hline, hblock, h.skipLineComment]
  simp only [bind, Except.bind, decide_eq_true_iff]
  by_cases hslash : r.head? = some '/'
  · rw [if_pos hslash, if_pos hslash]
    rfl
  · rw [if_neg hslash, if_neg hslash]
    by_cases hstar : r.head? = some '*'
    · obtain ⟨t, rfl⟩ := List.head?_eq_some_iff.1 hstar
      rw [if_pos hstar, if_pos hstar]
      exact At.blockComment (r := t) h
    · rw [if_neg hstar, if_neg hstar, ending_cut_one (by decide)]
      rfl

theorem At.codeToken_hash (h : At s i ('#' :: r)) :
    Cursor.codeToken afterAccess s i = .ok (Ending.of i (Lexeme.ofCode afterAccess '#' r).1) := by
  have hlead : Lead.of '#' = .hash := rfl
  have hattribute : Text.startsWith ('#' :: r) "#[".toList = decide (r.head? = some '[') :=
    startsWith_pair '#' '[' r
  rw [Cursor.codeToken, h.charAt?, Lexeme.ofCode]
  simp only [List.head?_cons, hlead]
  rw [h.sees (by decide), hattribute, h.skipLineComment]
  simp only [bind, Except.bind, decide_eq_true_iff]
  by_cases hbracket : r.head? = some '['
  · obtain ⟨t, rfl⟩ := List.head?_eq_some_iff.1 hbracket
    rw [if_pos hbracket, if_pos hbracket]
    exact congrArg Except.ok (@ending_cut ['#', '['] (by decide) .attribute i t).symm
  · rw [if_neg hbracket, if_neg hbracket]
    rfl

theorem At.codeToken_question (h : At s i ('?' :: r)) :
    Cursor.codeToken afterAccess s i = .ok (Ending.of i (Lexeme.ofCode afterAccess '?' r).1) := by
  have hlead : Lead.of '?' = .question := rfl
  have hclose : Text.startsWith ('?' :: r) "?>".toList = decide (r.head? = some '>') :=
    startsWith_pair '?' '>' r
  have harrow : "?->".toList = '?' :: "->".toList := rfl
  rw [Cursor.codeToken, h.charAt?, Lexeme.ofCode]
  simp only [List.head?_cons, hlead]
  rw [h.sees (by decide), hclose, harrow, h.markToken (by decide)]
  simp only [bind, Except.bind, decide_eq_true_iff]
  by_cases hgreater : r.head? = some '>'
  · obtain ⟨t, rfl⟩ := List.head?_eq_some_iff.1 hgreater
    have ht : At s (i + 2) t := h.advance (t := "?>".toList)
    obtain ⟨e, t', rfl, he, hlength, hend⟩ := ht.closeTagEnd
    have hascii : IsAscii ('?' :: '>' :: e) := .cons (by decide) (.cons (by decide) he)
    have hcut := ending_cut hascii .closeTag i t'
    have hdrop : ('>' :: (e ++ t')).drop 1 = e ++ t' := rfl
    rw [if_pos hgreater, if_pos hgreater, hend, hdrop, hlength, Nat.add_comm 2]
    rw [List.length_cons, List.length_cons, Nat.add_assoc e.length] at hcut
    refine congrArg Except.ok (Eq.trans ?_ hcut.symm)
    rw [Nat.add_assoc i 2, Nat.add_comm 2]
  · rw [if_neg hgreater, if_neg hgreater]
    rfl

theorem At.codeToken_dollar (h : At s i ('$' :: r)) :
    Cursor.codeToken afterAccess s i = .ok (Ending.of i (Lexeme.ofCode afterAccess '$' r).1) := by
  have hlead : Lead.of '$' = .dollar := rfl
  have hr : At s (i + 1) r := h.succ
  rw [Cursor.codeToken, h.charAt?, Lexeme.ofCode]
  simp only [List.head?_cons, hlead]
  rw [hr.charAt?, ← Text.startsLabel_eq_any, hr.skipLabel]
  cases hlabel : Text.startsLabel r with
  | true =>
    have hwidth : Char.utf8Size '$' = 1 := rfl
    simp only [if_true, Lexeme.variableName, Ending.of, Text.size_cons, hwidth, Nat.add_assoc]
    rfl
  | false =>
    rw [if_neg (by decide), if_neg (by decide), ending_cut_one (by decide)]
    rfl

theorem At.codeToken_less (h : At s i ('<' :: r)) :
    Cursor.codeToken afterAccess s i = .ok (Ending.of i (Lexeme.ofCode afterAccess '<' r).1) := by
  have hlead : Lead.of '<' = .less := rfl
  have hopens : Text.startsWith ('<' :: r) "<<<".toList = Text.startsWith r "<<".toList := by
    simp
  rw [Cursor.codeToken, h.charAt?, Lexeme.ofCode]
  simp only [List.head?_cons, hlead]
  rw [h.sees (by decide), hopens]
  cases hstart : Text.startsWith r "<<".toList with
  | true =>
    obtain ⟨t, rfl⟩ := Text.startsWith_iff.1 hstart
    have hheredoc := At.heredoc? (r := t) h
    have hdrop : ("<<".toList ++ t).drop 2 = t := rfl
    simp only [bind, Except.bind, hheredoc, hdrop, if_true]
    cases Lexeme.heredoc? t with
    | none =>
      rw [ending_cut_one (by decide)]
      rfl
    | some x => rfl
  | false =>
    rw [if_neg (by decide), ending_cut_one (by decide)]
    rfl

theorem At.codeToken_separator (h : At s i (separator :: r)) :
    Cursor.codeToken afterAccess s i =
      .ok (Ending.of i (Lexeme.ofCode afterAccess separator r).1) := by
  have hlead : Lead.of separator = .separator := rfl
  have hr : At s (i + 1) r := h.succ
  rw [Cursor.codeToken, h.charAt?, Lexeme.ofCode]
  simp only [List.head?_cons, hlead]
  rw [hr.charAt?, ← Text.startsLabel_eq_any]
  cases hlabel : Text.startsLabel r with
  | true =>
    rw [if_pos rfl, if_pos rfl, h.fullyQualifiedName hlabel]
    rfl
  | false =>
    rw [if_neg (by decide), if_neg (by decide), ending_cut_one (by decide)]
    rfl

theorem At.codeToken_dot (h : At s i ('.' :: r)) :
    Cursor.codeToken afterAccess s i = .ok (Ending.of i (Lexeme.ofCode afterAccess '.' r).1) := by
  have hlead : Lead.of '.' = .dot := rfl
  have hr : At s (i + 1) r := h.succ
  rw [Cursor.codeToken, h.charAt?, Lexeme.ofCode]
  simp only [List.head?_cons, hlead]
  rw [hr.charAt?]
  cases r.head?.any Char.isDigit with
  | true => exact h.number
  | false =>
    rw [if_neg (by decide), if_neg (by decide), ending_cut_one (by decide)]
    rfl

theorem At.codeToken {c : Char} (h : At s i (c :: r)) (hs : s.size < UInt32.size) :
    Cursor.codeToken afterAccess s i = .ok (Ending.of i (Lexeme.ofCode afterAccess c r).1) := by
  have hannounced := Lead.announced_of c
  cases hlead : Lead.of c with rw [hlead] at hannounced
  | slash =>
    obtain rfl : c = '/' := by simpa [Lead.Announced, Lead.symbols] using hannounced
    exact h.codeToken_slash
  | hash =>
    obtain rfl : c = '#' := by simpa [Lead.Announced, Lead.symbols] using hannounced
    exact h.codeToken_hash
  | question =>
    obtain rfl : c = '?' := by simpa [Lead.Announced, Lead.symbols] using hannounced
    exact h.codeToken_question
  | dollar =>
    obtain rfl : c = '$' := by simpa [Lead.Announced, Lead.symbols] using hannounced
    exact h.codeToken_dollar
  | less =>
    obtain rfl : c = '<' := by simpa [Lead.Announced, Lead.symbols] using hannounced
    exact h.codeToken_less
  | separator =>
    obtain rfl : c = separator := by
      simpa [Lead.Announced, Lead.symbols, separator] using hannounced
    exact h.codeToken_separator
  | dot =>
    obtain rfl : c = '.' := by simpa [Lead.Announced, Lead.symbols] using hannounced
    exact h.codeToken_dot
  | minus =>
    obtain rfl : c = '-' := by simpa [Lead.Announced, Lead.symbols] using hannounced
    rw [Cursor.codeToken, h.charAt?, Lexeme.ofCode]
    simp only [List.head?_cons, hlead]
    exact h.markPair (by decide) .arrow
  | colon =>
    obtain rfl : c = ':' := by simpa [Lead.Announced, Lead.symbols] using hannounced
    rw [Cursor.codeToken, h.charAt?, Lexeme.ofCode]
    simp only [List.head?_cons, hlead]
    exact h.markPair (by decide) .doubleColon
  | blank =>
    rw [Cursor.codeToken, h.charAt?, Lexeme.ofCode]
    simp only [List.head?_cons, hlead, h.skipBytes asciiClass_isBlank]
    rfl
  | mark kind =>
    rw [Cursor.codeToken, h.charAt?, Lexeme.ofCode]
    simp only [List.head?_cons, hlead, ending_cut_one (symbols_ascii _ hannounced)]
    rfl
  | operator =>
    rw [Cursor.codeToken, h.charAt?, Lexeme.ofCode]
    simp only [List.head?_cons, hlead, ending_cut_one (symbols_ascii _ hannounced)]
    rfl
  | quote =>
    rw [Cursor.codeToken, h.charAt?, Lexeme.ofCode]
    simp only [List.head?_cons, hlead]
    exact h.stringLiteral hs (symbols_ascii _ hannounced)
  | digit =>
    rw [Cursor.codeToken, h.charAt?, Lexeme.ofCode]
    simp only [List.head?_cons, hlead]
    exact h.number
  | label =>
    rw [Cursor.codeToken, h.charAt?, Lexeme.ofCode]
    simp only [List.head?_cons, hlead]
    exact h.name
  | stray =>
    rw [Cursor.codeToken, h.charAt?, Lexeme.ofCode]
    simp only [List.head?_cons, hlead]
    rfl

end CodeToken

end PhpImports.Cursor

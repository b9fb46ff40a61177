import PhpImports.Lexeme.Number
import PhpImports.Proofs.Cursor.Basic

/-!
# Numbers at byte offsets

A number is read with looks at single bytes, up to two past the part already taken. What is looked
for is ASCII throughout, so the byte after a dot may belong to any character.
-/

namespace PhpImports.Cursor

def radixMarks : List Text :=
  ["0x", "0X", "0b", "0B", "0o", "0O"].map String.toList

/-- Past the fraction at `i`, if one is there. -/
def fractionEnd (s : Text) (i : Nat) : Nat :=
  if peek s i (· = '.') && !peek s (i + 1) isAsciiPunctuation then
    skipBytes Lexeme.isDigitOrBar s (i + 1)
  else i

/-- Past the sign at `i`, if one is there. -/
def signEnd (s : Text) (i : Nat) : Nat :=
  if peek s i (fun c => c = '+' || c = '-') then i + 1 else i

/-- Past the exponent at `i`, if one is there. -/
def exponentEnd (s : Text) (i : Nat) : Nat :=
  let digits := signEnd s (i + 1)
  if peek s i (fun c => c = 'e' || c = 'E') && peek s digits Char.isDigit then
    skipBytes Lexeme.isDigitOrBar s digits
  else i

/-- The number that starts at `i`. -/
def number (s : Text) (i : Nat) : Result Ending := do
  if ← radixMarks.anyM (sees s i) then
    return ⟨.number, skipBytes Lexeme.isRadixDigit s (i + 2), none⟩
  return ⟨.number, exponentEnd s (fractionEnd s (skipBytes Lexeme.isDigitOrBar s i)), none⟩

theorem asciiClass_isDigit : AsciiClass Char.isDigit := by
  intro c hc
  obtain ⟨-, hle⟩ := Bool.and_eq_true_iff.1 hc
  have hle' : c.toNat ≤ 57 := of_decide_eq_true hle
  omega

theorem asciiClass_or_bar {P : Char → Bool} (hP : AsciiClass P) :
    AsciiClass fun c => P c || c = '_' := by
  intro c hc
  rcases Bool.or_eq_true_iff.1 hc with hclass | hbar
  · exact hP c hclass
  · exact ascii_eq (by decide) c hbar

theorem asciiClass_isDigitOrBar : AsciiClass Lexeme.isDigitOrBar :=
  asciiClass_or_bar asciiClass_isDigit

theorem asciiClass_isRadixDigit : AsciiClass Lexeme.isRadixDigit := by
  apply asciiClass_or_bar
  intro c hc
  rcases Bool.or_eq_true_iff.1 hc with halpha | hdigit
  · exact asciiClass_isAlpha c halpha
  · exact asciiClass_isDigit c hdigit

theorem asciiClass_isAsciiPunctuation : AsciiClass isAsciiPunctuation := by
  intro c hc
  obtain ⟨hrange, -⟩ := Bool.and_eq_true_iff.1 hc
  obtain ⟨-, hle⟩ := Bool.and_eq_true_iff.1 hrange
  have hle' : c.toNat ≤ 126 := of_decide_eq_true hle
  omega

variable {s r : Text} {i : Nat}

/-- Past characters that the text starts with. -/
theorem At.drop {t : Text} (h : At s i r) (ht : t <+: r) : At s (i + t.size) (r.drop t.length) := by
  obtain ⟨rest, rfl⟩ := ht
  rw [List.drop_left]
  exact h.advance

theorem anyM_sees {patterns : List Text} (h : At s i r)
    (hp : ∀ p ∈ patterns, IsAscii p) :
    patterns.anyM (sees s i) = .ok (patterns.any (Text.startsWith r)) := by
  induction patterns with
  | nil => rfl
  | cons p ps ih =>
    have hrest := ih fun q hq => hp q (List.mem_cons_of_mem p hq)
    rw [List.anyM, h.sees (hp p List.mem_cons_self), List.any_cons]
    simp only [bind, Except.bind]
    cases Text.startsWith r p with
    | true => rfl
    | false => simpa using hrest

theorem any_radixMarks (r : Text) : radixMarks.any (Text.startsWith r) = Lexeme.startsRadix r := by
  rw [Lexeme.startsRadix.eq_def]
  split
  · next c _ => simp [radixMarks]
  · next hr =>
    rcases r with _ | ⟨d, _ | ⟨c, r⟩⟩
    · rfl
    · simp [radixMarks]
    · have hd : d ≠ '0' := fun hd => hr c r (by rw [hd])
      simp [radixMarks, hd]

theorem At.fractionEnd (h : At s i r) :
    Cursor.fractionEnd s i = i + Text.size (Lexeme.fraction r) := by
  rw [Cursor.fractionEnd, h.peek_eq (k := '.')]
  rcases r with _ | ⟨c, r⟩
  · rfl
  · by_cases hc : c = '.'
    · subst hc
      have hnext : At s (i + 1) r := h.succ
      have hall : (r.head?.all fun c => !isAsciiPunctuation c) =
          !r.head?.any isAsciiPunctuation := by
        cases r <;> rfl
      have hdot : Char.utf8Size '.' = 1 := rfl
      rw [hnext.peek asciiClass_isAsciiPunctuation, Lexeme.fraction, hall,
        hnext.skipBytes asciiClass_isDigitOrBar]
      cases r.head?.any isAsciiPunctuation with
      | true => simp
      | false => simp [hdot, Nat.add_assoc]
    · have hnone : Lexeme.fraction (c :: r) = [] := by
        rw [Lexeme.fraction.eq_def]
        split
        · next heq => exact absurd (List.cons.inj heq).1 hc
        · rfl
      simp [hc, hnone]

theorem At.signEnd (h : At s i r) : Cursor.signEnd s i = i + Text.size (Lexeme.sign r) := by
  rw [Cursor.signEnd, h.peek asciiClass_pair]
  cases r with
  | nil => rfl
  | cons c r =>
    by_cases hc : c = '+' ∨ c = '-'
    · have hwidth : c.utf8Size = 1 := by rcases hc with rfl | rfl <;> rfl
      simp [Lexeme.sign, hc, hwidth]
    · simp [Lexeme.sign, hc]

theorem At.exponentEnd (h : At s i r) :
    Cursor.exponentEnd s i = i + Text.size (Lexeme.exponent r) := by
  rw [Cursor.exponentEnd, h.peek asciiClass_pair]
  cases r with
  | nil => rfl
  | cons c r =>
    by_cases hc : c = 'e' ∨ c = 'E'
    · have hwidth : c.utf8Size = 1 := by rcases hc with rfl | rfl <;> rfl
      have hnext : At s (i + 1) r := by rcases hc with rfl | rfl <;> exact h.succ
      have hdigits := hnext.drop (Lexeme.sign_isPrefix r)
      simp only [hnext.signEnd, hdigits.peek asciiClass_isDigit,
        hdigits.skipBytes asciiClass_isDigitOrBar, Lexeme.exponent]
      cases (r.drop (Lexeme.sign r).length).head?.any Char.isDigit with
      | true => simp [hc, hwidth, Nat.add_assoc]
      | false => simp
    · simp [Lexeme.exponent, hc]

theorem At.number (h : At s i r) : Cursor.number s i = .ok (Ending.of i (Lexeme.number r).1) := by
  have hmarks : ∀ p ∈ radixMarks, IsAscii p := by decide
  rw [Cursor.number, anyM_sees h hmarks, any_radixMarks]
  simp only [bind, Except.bind, Lexeme.number, Lexeme.numeral, Ending.of]
  cases hradix : Lexeme.startsRadix r with
  | true =>
    rw [← any_radixMarks] at hradix
    obtain ⟨mark, hmark, hstart⟩ := List.any_eq_true.1 hradix
    obtain ⟨t, rfl⟩ := Text.startsWith_iff.1 hstart
    have hlength : ∀ p ∈ radixMarks, p.length = 2 ∧ Text.size p = 2 := by decide
    obtain ⟨hlen, hsize⟩ := hlength mark hmark
    have hdigits : At s (i + 2) t := hsize ▸ h.advance
    have htake : (mark ++ t).take 2 = mark := by rw [← hlen, List.take_left]
    have hdrop : (mark ++ t).drop 2 = t := by rw [← hlen, List.drop_left]
    rw [hdigits.skipBytes asciiClass_isRadixDigit, if_pos rfl, if_pos rfl, htake, hdrop,
      Text.size_append, hsize, Nat.add_assoc]
    rfl
  | false =>
    have hwhole := h.drop (List.takeWhile_prefix Lexeme.isDigitOrBar)
    have hfraction := hwhole.drop (Lexeme.fraction_isPrefix _)
    rw [h.skipBytes asciiClass_isDigitOrBar, hwhole.fractionEnd, hfraction.exponentEnd,
      if_neg (by decide), if_neg (by decide), List.drop_drop, Text.size_append, Text.size_append]
    simp only [Nat.add_assoc]
    rfl

end PhpImports.Cursor

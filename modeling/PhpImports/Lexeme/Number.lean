import PhpImports.Lexeme.Basic

/-!
# Numbers

A number is an integer in one of the radix notations, or decimal digits with an optional fraction
and an optional exponent. A dot belongs to the number unless punctuation follows it, so that two
dots are no fraction.
-/

namespace PhpImports.Lexeme

/-- Digits of a decimal number and the bars that group them. -/
def isDigitOrBar (c : Char) : Bool :=
  c.isDigit || c = '_'

def isRadixDigit (c : Char) : Bool :=
  c.isAlphanum || c = '_'

def startsRadix : Text → Bool
  | '0' :: c :: _ => "xXbBoO".toList.contains c
  | _ => false

/-- The fraction that a text starts with, or nothing. -/
def fraction : Text → Text
  | '.' :: r =>
    if r.head?.all (fun c => !isAsciiPunctuation c) then '.' :: r.takeWhile isDigitOrBar else []
  | _ => []

/-- The sign that a text starts with, or nothing. -/
def sign : Text → Text
  | [] => []
  | c :: _ => if c = '+' ∨ c = '-' then [c] else []

/-- The exponent that a text starts with, or nothing. -/
def exponent : Text → Text
  | [] => []
  | c :: r =>
    let digits := r.drop (sign r).length
    if (c = 'e' ∨ c = 'E') ∧ digits.head?.any Char.isDigit then
      c :: (sign r ++ digits.takeWhile isDigitOrBar)
    else []

/-- The characters of the number that a text starts with. -/
def numeral (s : Text) : Text :=
  if startsRadix s then s.take 2 ++ (s.drop 2).takeWhile isRadixDigit
  else
    let whole := s.takeWhile isDigitOrBar
    let part := fraction (s.drop whole.length)
    whole ++ part ++ exponent (s.drop (whole.length + part.length))

def number (s : Text) : Lexeme × Text :=
  ({ kind := .number, text := numeral s }, s.drop (numeral s).length)

theorem fraction_isPrefix (s : Text) : fraction s <+: s := by
  unfold fraction
  split
  · split
    · exact List.cons_prefix_cons.2 ⟨rfl, List.takeWhile_prefix _⟩
    · exact List.nil_prefix
  · exact List.nil_prefix

theorem isPrefix_append {a b s : Text} (ha : a <+: s) (hb : b <+: s.drop a.length) :
    a ++ b <+: s := by
  obtain ⟨r, rfl⟩ := ha
  rw [List.drop_left] at hb
  exact (List.prefix_append_right_inj a).2 hb

theorem sign_isPrefix (s : Text) : sign s <+: s := by
  unfold sign
  split
  · exact List.nil_prefix
  · split
    · exact List.cons_prefix_cons.2 ⟨rfl, List.nil_prefix⟩
    · exact List.nil_prefix

theorem exponent_isPrefix (s : Text) : exponent s <+: s := by
  unfold exponent
  split
  · exact List.nil_prefix
  · simp only
    split
    · exact List.cons_prefix_cons.2
        ⟨rfl, isPrefix_append (sign_isPrefix _) (List.takeWhile_prefix _)⟩
    · exact List.nil_prefix

theorem numeral_isPrefix (s : Text) : numeral s <+: s := by
  unfold numeral
  split
  · have h := (List.prefix_append_right_inj (s.take 2)).2
      (List.takeWhile_prefix isRadixDigit (l := s.drop 2))
    rwa [List.take_append_drop] at h
  · refine isPrefix_append (isPrefix_append (List.takeWhile_prefix _) (fraction_isPrefix _)) ?_
    rw [List.length_append]
    exact exponent_isPrefix _

theorem numeral_ne_nil {c : Char} {r : Text}
    (h : c.isDigit = true ∨ c = '.' ∧ r.head?.any Char.isDigit = true) :
    numeral (c :: r) ≠ [] := by
  unfold numeral
  split
  · simp
  · rcases h with h | ⟨rfl, h⟩
    · simp [isDigitOrBar, h]
    · cases r with
      | nil => simp at h
      | cons d r =>
        have hd : isAsciiPunctuation d = false := by
          simp only [List.head?_cons, Option.any_some] at h
          simp [isAsciiPunctuation, Char.isAlphanum, h]
        simp [isDigitOrBar, fraction, hd]

theorem number_splits {c : Char} {r : Text}
    (h : c.isDigit = true ∨ c = '.' ∧ r.head?.any Char.isDigit = true) :
    Splits (c :: r) (number (c :: r)) :=
  ⟨List.prefix_iff_eq_append.1 (numeral_isPrefix _), numeral_ne_nil h⟩

end PhpImports.Lexeme

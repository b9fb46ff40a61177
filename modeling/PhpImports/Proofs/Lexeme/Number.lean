import PhpImports.Proofs.Lexeme.Grammar

/-!
# How far numbers look ahead

A number is made of digits, letters, bars, dots and signs, and behind these it only asks whether
punctuation follows. So texts that go on alike over such characters, and then both stop, start with
the same number (`NumeralAlike.numeral`).
-/

namespace PhpImports.Lexeme

/-- The characters that numbers are made of. -/
def isNumeralChar (c : Char) : Bool :=
  isRadixDigit c || c = '.' || c = '+' || c = '-'

/-- The same characters of numbers, and then others, or none, which are both punctuation or both
not. -/
inductive NumeralAlike : Text → Text → Prop
  | stop {s t : Text} (left : s.head?.any isNumeralChar = false)
      (right : t.head?.any isNumeralChar = false)
      (punctuation : s.head?.any isAsciiPunctuation = t.head?.any isAsciiPunctuation) :
      NumeralAlike s t
  | cons {c : Char} {s t : Text} (char : isNumeralChar c = true) (rest : NumeralAlike s t) :
      NumeralAlike (c :: s) (c :: t)

variable {s t : Text}

theorem isNumeralChar_of_isRadixDigit {c : Char} (h : isRadixDigit c = true) :
    isNumeralChar c = true := by
  rw [isNumeralChar, h]
  rfl

theorem isNumeralChar_of_isDigit {c : Char} (h : c.isDigit = true) : isNumeralChar c = true :=
  isNumeralChar_of_isRadixDigit (by simp [isRadixDigit, Char.isAlphanum, h])

theorem isNumeralChar_of_isDigitOrBar {c : Char} (h : isDigitOrBar c = true) :
    isNumeralChar c = true := by
  rcases Bool.or_eq_true_iff.1 h with hdigit | hbar
  · exact isNumeralChar_of_isDigit hdigit
  · rw [of_decide_eq_true hbar]
    rfl

theorem isNumeralChar_of_mem_radix {c : Char} (h : "xXbBoO".toList.contains c = true) :
    isNumeralChar c = true := by
  have hletters : "xXbBoO".toList.all isNumeralChar = true := by decide
  exact List.all_eq_true.1 hletters c (List.contains_iff_mem.1 h)

theorem startsRadix_cons (c : Char) (r : Text) :
    startsRadix (c :: r) = (decide (c = '0') && r.head?.any "xXbBoO".toList.contains) := by
  rw [startsRadix.eq_def]
  split
  · next d r hs =>
    obtain ⟨rfl, rfl⟩ := List.cons.inj hs
    rfl
  · next hne =>
    by_cases hc : c = '0'
    · cases r with
      | nil => simp
      | cons d r => exact absurd (by rw [hc]) (hne d r)
    · rw [decide_eq_false hc, Bool.false_and]

theorem fraction_cons (c : Char) (r : Text) :
    fraction (c :: r) = if c = '.' ∧ r.head?.any isAsciiPunctuation = false
      then '.' :: r.takeWhile isDigitOrBar else [] := by
  by_cases hc : c = '.'
  · subst hc
    cases r <;> simp [fraction]
  · rw [if_neg fun h => hc h.1, fraction]
    rintro r hs
    exact hc (List.cons.inj hs).1

theorem all_digits (s : Text) : ∀ c ∈ s.takeWhile isDigitOrBar, isNumeralChar c = true :=
  fun c hc => isNumeralChar_of_isDigitOrBar (List.all_eq_true.1 List.all_takeWhile c hc)

theorem all_sign (s : Text) : ∀ c ∈ sign s, isNumeralChar c = true := by
  cases s with
  | nil => simp [sign]
  | cons c s =>
    rw [sign]
    split
    · next hc =>
      rintro d hd
      obtain rfl := List.mem_singleton.1 hd
      rcases hc with rfl | rfl <;> rfl
    · simp

theorem all_fraction (s : Text) : ∀ c ∈ fraction s, isNumeralChar c = true := by
  cases s with
  | nil => simp [fraction]
  | cons c s =>
    rw [fraction_cons]
    split
    · rintro d hd
      rcases List.mem_cons.1 hd with rfl | hd
      · rfl
      · exact all_digits s d hd
    · simp

theorem all_exponent (s : Text) : ∀ c ∈ exponent s, isNumeralChar c = true := by
  cases s with
  | nil => simp [exponent]
  | cons c s =>
    rw [exponent]
    split
    · next hletter =>
      intro d hd
      rcases List.mem_cons.1 hd with rfl | hd
      · rcases hletter.1 with rfl | rfl <;> rfl
      · rcases List.mem_append.1 hd with hd | hd
        · exact all_sign _ d hd
        · exact all_digits _ d hd
    · simp

/-- The two characters that choose a radix. -/
theorem all_radix (h : startsRadix s = true) :
    (s.take 2).length = 2 ∧ ∀ c ∈ s.take 2, isNumeralChar c = true := by
  rcases s with _ | ⟨c, _ | ⟨d, s⟩⟩
  · cases h
  · simp [startsRadix_cons] at h
  · rw [startsRadix_cons, Bool.and_eq_true, decide_eq_true_iff] at h
    obtain ⟨rfl, hletter⟩ := h
    refine ⟨rfl, ?_⟩
    intro k hk
    simp only [List.take_succ_cons, List.take_zero, List.mem_cons, List.not_mem_nil, or_false] at hk
    rcases hk with rfl | rfl
    · rfl
    · exact isNumeralChar_of_mem_radix hletter

theorem all_numeral (s : Text) : ∀ c ∈ numeral s, isNumeralChar c = true := by
  intro c hc
  rw [numeral] at hc
  split at hc
  · next hradix =>
    rcases List.mem_append.1 hc with hc | hc
    · exact (all_radix hradix).2 c hc
    · exact isNumeralChar_of_isRadixDigit (List.all_eq_true.1 List.all_takeWhile c hc)
  · rcases List.mem_append.1 hc with hc | hc
    · rcases List.mem_append.1 hc with hc | hc
      · exact all_digits _ c hc
      · exact all_fraction _ c hc
    · exact all_exponent _ c hc

/-- What tells no two texts apart at which a number stops. -/
theorem eq_of_stop {β : Type} {f : Text → β}
    (h : ∀ c r, isNumeralChar c = false → f (c :: r) = f [])
    (hs : s.head?.any isNumeralChar = false) (ht : t.head?.any isNumeralChar = false) :
    f s = f t := by
  have hstop : ∀ {r : Text}, r.head?.any isNumeralChar = false → f r = f [] := by
    intro r hr
    cases r with
    | nil => rfl
    | cons c r => exact h c r hr
  rw [hstop hs, hstop ht]

namespace NumeralAlike

theorem any_head? {p : Char → Bool} (h : NumeralAlike s t)
    (hp : ∀ c, p c = true → isNumeralChar c = true) : s.head?.any p = t.head?.any p := by
  cases h with
  | stop hleft hright _ =>
    refine eq_of_stop (f := fun r => r.head?.any p) ?_ hleft hright
    intro c r hc
    exact Bool.eq_false_iff.2 fun h => by rw [hp c h] at hc; cases hc
  | cons _ _ => rfl

theorem any_isAsciiPunctuation (h : NumeralAlike s t) :
    s.head?.any isAsciiPunctuation = t.head?.any isAsciiPunctuation := by
  cases h with
  | stop _ _ hpunctuation => exact hpunctuation
  | cons _ _ => rfl

theorem takeWhile {p : Char → Bool} (h : NumeralAlike s t)
    (hp : ∀ c, p c = true → isNumeralChar c = true) : s.takeWhile p = t.takeWhile p := by
  induction h with
  | stop hleft hright _ =>
    refine eq_of_stop ?_ hleft hright
    intro c r hc
    exact List.takeWhile_cons_of_neg fun h => by rw [hp c h] at hc; cases hc
  | cons _ _ ih => rw [List.takeWhile_cons, List.takeWhile_cons, ih]

/-- Past characters of numbers the texts are still alike. -/
theorem drop {a : Text} (h : NumeralAlike s t) (ha : a <+: s)
    (hchars : ∀ c ∈ a, isNumeralChar c = true) :
    a <+: t ∧ NumeralAlike (s.drop a.length) (t.drop a.length) := by
  induction h generalizing a with
  | @stop s t hleft hright hpunctuation =>
    cases a with
    | nil => exact ⟨List.nil_prefix, .stop hleft hright hpunctuation⟩
    | cons c a =>
      obtain ⟨r, rfl⟩ := ha
      have hc : isNumeralChar c = false := hleft
      rw [hchars c List.mem_cons_self] at hc
      cases hc
  | @cons c s t hc hrest ih =>
    cases a with
    | nil => exact ⟨List.nil_prefix, .cons hc hrest⟩
    | cons d a =>
      obtain ⟨rfl, htail⟩ := List.cons_prefix_cons.1 ha
      obtain ⟨hfront, hdrop⟩ := ih htail fun c hc => hchars c (List.mem_cons_of_mem _ hc)
      exact ⟨List.cons_prefix_cons.2 ⟨rfl, hfront⟩, hdrop⟩

theorem startsRadix (h : NumeralAlike s t) : Lexeme.startsRadix s = Lexeme.startsRadix t := by
  cases h with
  | stop hleft hright _ =>
    refine eq_of_stop ?_ hleft hright
    intro c r hc
    have hzero : c ≠ '0' := by
      rintro rfl
      cases hc
    rw [startsRadix_cons, decide_eq_false hzero]
    rfl
  | cons _ hrest =>
    rw [startsRadix_cons, startsRadix_cons,
      hrest.any_head? fun _ hc => isNumeralChar_of_mem_radix hc]

theorem fraction (h : NumeralAlike s t) : Lexeme.fraction s = Lexeme.fraction t := by
  cases h with
  | stop hleft hright _ =>
    refine eq_of_stop ?_ hleft hright
    intro c r hc
    rw [fraction_cons, if_neg]
    · rfl
    · rintro ⟨rfl, -⟩
      cases hc
  | cons _ hrest =>
    rw [fraction_cons, fraction_cons, hrest.any_isAsciiPunctuation,
      hrest.takeWhile fun _ => isNumeralChar_of_isDigitOrBar]

theorem sign (h : NumeralAlike s t) : Lexeme.sign s = Lexeme.sign t := by
  cases h with
  | stop hleft hright _ =>
    refine eq_of_stop ?_ hleft hright
    intro c r hc
    have hsign : ¬ (c = '+' ∨ c = '-') := by
      rintro (rfl | rfl) <;> cases hc
    exact if_neg hsign
  | cons _ _ => rfl

theorem exponent (h : NumeralAlike s t) : Lexeme.exponent s = Lexeme.exponent t := by
  cases h with
  | stop hleft hright _ =>
    refine eq_of_stop ?_ hleft hright
    intro c r hc
    have hletter : ¬ (c = 'e' ∨ c = 'E') := by
      rintro (rfl | rfl) <;> cases hc
    exact if_neg fun h => hletter h.1
  | cons _ hrest =>
    obtain ⟨-, hdigits⟩ := hrest.drop (sign_isPrefix _) (all_sign _)
    rw [hrest.sign] at hdigits
    rw [Lexeme.exponent, Lexeme.exponent]
    simp only [hrest.sign, hdigits.any_head? fun _ => isNumeralChar_of_isDigit,
      hdigits.takeWhile fun _ => isNumeralChar_of_isDigitOrBar]

theorem numeral (h : NumeralAlike s t) : Lexeme.numeral s = Lexeme.numeral t := by
  rw [Lexeme.numeral, Lexeme.numeral, ← h.startsRadix]
  split
  · next hradix =>
    obtain ⟨hlength, hchars⟩ := all_radix hradix
    obtain ⟨⟨r, rfl⟩, hrest⟩ := h.drop (List.take_prefix 2 s) hchars
    rw [hlength] at hrest
    have htake : (s.take 2 ++ r).take 2 = s.take 2 := List.take_left' hlength
    rw [htake, hrest.takeWhile fun _ => isNumeralChar_of_isRadixDigit]
  · have hwhole := h.takeWhile fun _ => isNumeralChar_of_isDigitOrBar
    obtain ⟨-, hrest⟩ := h.drop (List.takeWhile_prefix isDigitOrBar) (all_digits s)
    have hpart := hrest.fraction
    obtain ⟨-, hlast⟩ := hrest.drop (fraction_isPrefix _) (all_fraction _)
    rw [List.drop_drop, List.drop_drop] at hlast
    simp only [← hwhole, ← hpart, hlast.exponent]

theorem startsNumber (h : NumeralAlike s t) : Lexeme.startsNumber s = Lexeme.startsNumber t := by
  cases h with
  | stop hleft hright _ =>
    refine eq_of_stop ?_ hleft hright
    intro c r hc
    have hdigit : c.isDigit = false :=
      Bool.eq_false_iff.2 fun h => by rw [isNumeralChar_of_isDigit h] at hc; cases hc
    have hdot : c ≠ '.' := by
      rintro rfl
      cases hc
    have hnone : Lexeme.startsNumber (c :: r) = false := by
      rw [Lexeme.startsNumber, hdigit, decide_eq_false hdot]
      rfl
    exact hnone
  | cons _ hrest =>
    rw [Lexeme.startsNumber, Lexeme.startsNumber, hrest.any_head? fun _ => isNumeralChar_of_isDigit]

end NumeralAlike
end PhpImports.Lexeme

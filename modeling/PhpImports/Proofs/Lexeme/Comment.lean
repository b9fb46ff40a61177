import PhpImports.Lexeme.Comment
import PhpImports.Proofs.Text.Break

/-!
# What comments are made of

The text of a line comment holds no line ending and no close tag, and one of these or the end comes
behind it (`break_lineComment_iff`). The body of a block comment holds no closing mark: the first
mark behind the opening ends it, or else it runs to the end of the text (`blockBody_cases`).
-/

namespace PhpImports.Lexeme

theorem break_lineComment_iff {a x : Text} :
    Text.breakAt endsLineComment (a ++ x) = (a, x) ↔ (x = [] ∨ endsLineComment x = true) ∧
      '\n' ∉ a ∧ '\r' ∉ a ∧ ¬ ['?', '>'] <:+: a := by
  rw [Text.breakAt_eq_iff]
  constructor
  · rintro ⟨hx, ha⟩
    refine ⟨hx, ?_, ?_, ?_⟩
    · intro hmem
      obtain ⟨p, q, hsplit⟩ := List.append_of_mem hmem
      simpa [endsLineComment] using ha p '\n' q hsplit
    · intro hmem
      obtain ⟨p, q, hsplit⟩ := List.append_of_mem hmem
      simpa [endsLineComment] using ha p '\r' q hsplit
    · rintro ⟨p, q, hsplit⟩
      have hstop := ha p '?' ('>' :: q) (by rw [← hsplit]; simp)
      simp [endsLineComment] at hstop
  · rintro ⟨hx, hlf, hcr, hclose⟩
    refine ⟨hx, ?_⟩
    rintro p c q rfl
    have hc : c ≠ '\n' ∧ c ≠ '\r' := by
      constructor <;> (rintro rfl; simp at hlf hcr)
    have hmark : ¬ (c = '?' ∧ (q ++ x).head? = some '>') := by
      rintro ⟨rfl, hhead⟩
      cases q with
      | nil =>
        rcases hx with rfl | hx
        · cases hhead
        · obtain ⟨r, rfl⟩ := List.head?_eq_some_iff.1 hhead
          simp [endsLineComment] at hx
      | cons d q =>
        obtain rfl : d = '>' := by simpa using hhead
        exact hclose ⟨p, q, by simp⟩
    simpa [endsLineComment, hc] using hmark

/-- A line comment is trivia up to its line ending, whatever is in it. -/
theorem lineComment_eq {a r : Text} (hlf : '\n' ∉ a) (hcr : '\r' ∉ a)
    (hclose : ¬ ['?', '>'] <:+: a) :
    lineComment (a ++ '\n' :: r) = ({ kind := .comment, text := a }, '\n' :: r) := by
  have hbreak : Text.breakAt endsLineComment (a ++ '\n' :: r) = (a, '\n' :: r) :=
    break_lineComment_iff.2 ⟨Or.inr rfl, hlf, hcr, hclose⟩
  rw [lineComment, upTo, hbreak]

/-- No closing mark starts in a body without one, even with a mark behind it. -/
theorem not_startsWith_of_unclosed {body b : Text} (h : ¬ ['*', '/'] <:+: body)
    (hb : b.head? ≠ some '/') :
    ∀ x c y, body = x ++ c :: y → Text.startsWith (c :: (y ++ b)) ['*', '/'] = false := by
  rintro x c y rfl
  rw [Bool.eq_false_iff]
  intro hstart
  obtain ⟨t, ht⟩ := Text.startsWith_iff.1 hstart
  obtain ⟨rfl, hrest⟩ := List.cons.inj ht
  cases y with
  | nil =>
    rw [List.nil_append] at hrest
    rw [hrest] at hb
    exact hb rfl
  | cons d y =>
    obtain ⟨rfl, -⟩ := List.cons.inj hrest
    exact h ⟨x, y, by simp⟩

/-- A block comment ends at its closing mark, whatever is in it. -/
theorem blockBody_eq {body : Text} (h : ¬ ['*', '/'] <:+: body) (r : Text) :
    blockBody (body ++ ['*', '/'] ++ r) = (body ++ ['*', '/'], some r) := by
  have hbreak : Text.breakAt (Text.startsWith · ['*', '/']) (body ++ (['*', '/'] ++ r)) =
      (body, ['*', '/'] ++ r) :=
    Text.breakAt_eq (Or.inr (Text.startsWith_iff.2 ⟨r, rfl⟩))
      (not_startsWith_of_unclosed h (by simp))
  rw [blockBody, show "*/".toList = ['*', '/'] from rfl, List.append_assoc, hbreak]
  rfl

/-- A body without a closing mark runs to the end. -/
theorem blockBody_eq_open {body : Text} (h : ¬ ['*', '/'] <:+: body) :
    blockBody body = (body, none) := by
  have hbreak : Text.breakAt (Text.startsWith · ['*', '/']) (body ++ []) = (body, []) :=
    Text.breakAt_eq (Or.inl rfl) (not_startsWith_of_unclosed h (by simp))
  rw [List.append_nil] at hbreak
  rw [blockBody, show "*/".toList = ['*', '/'] from rfl, hbreak]
  simp

theorem blockBody_cases (s : Text) :
    (∃ body r, s = body ++ ['*', '/'] ++ r ∧ ¬ ['*', '/'] <:+: body) ∨ ¬ ['*', '/'] <:+: s := by
  have happend := Text.breakAt_append (Text.startsWith · ['*', '/']) s
  have hstop := Text.breakAt_stop (Text.startsWith · ['*', '/']) s
  have hbefore := @Text.breakAt_before (Text.startsWith · ['*', '/']) s
  generalize Text.breakAt (Text.startsWith · ['*', '/']) s = cut at happend hstop hbefore
  obtain ⟨body, rest⟩ := cut
  have hbody : ¬ ['*', '/'] <:+: body := by
    rintro ⟨p, q, hsplit⟩
    have hstart : Text.startsWith ('*' :: ('/' :: q) ++ rest) ['*', '/'] = false :=
      hbefore (a := p) (by rw [← hsplit]; simp)
    simp at hstart
  rcases hstop with rfl | hstop
  · right
    rw [List.append_nil] at happend
    rwa [← happend]
  · left
    obtain ⟨r, rfl⟩ := Text.startsWith_iff.1 hstop
    exact ⟨body, r, by rw [List.append_assoc, ← happend], hbody⟩

theorem isDocBody_cons (c : Char) (r : Text) :
    isDocBody (c :: r) = (decide (c = '*') && r.head?.any isBlank) := by
  by_cases hc : c = '*'
  · subst hc
    cases r <;> rfl
  · rw [decide_eq_false hc, Bool.false_and, isDocBody]
    rintro d r hs
    exact hc (List.cons.inj hs).1

/-- Whether a comment documents the code is settled in front of its closing mark. -/
theorem isDocBody_append (body r : Text) :
    isDocBody (body ++ ['*', '/'] ++ r) = isDocBody body := by
  match body with
  | [] => rfl
  | [c] =>
    by_cases hc : c = '*'
    · subst hc
      rfl
    · rw [isDocBody, isDocBody]
      · simp
      · simpa using hc
  | c :: d :: body =>
    by_cases hc : c = '*'
    · subst hc
      rfl
    · rw [isDocBody, isDocBody]
      · simpa using hc
      · simpa using hc

end PhpImports.Lexeme

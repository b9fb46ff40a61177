import PhpImports.Text.Basic

/-!
# Breaking a text

`breakAt stop s` cuts `s` before its first nonempty suffix that `stop` accepts, or at its end.
Nothing is lost (`breakAt_append`), no suffix inside the first part is accepted
(`breakAt_before`), and the second part is empty or accepted (`breakAt_stop`).
-/

namespace PhpImports.Text

def breakAt (stop : Text → Bool) (s : Text) : Text × Text :=
  go [] s
where
  /-- `seen` holds the characters before the cut, the last one first. -/
  go (seen : Text) : Text → Text × Text
    | [] => (seen.reverse, [])
    | c :: r => if stop (c :: r) then (seen.reverse, c :: r) else go (c :: seen) r

theorem breakAt_go (stop : Text → Bool) (seen s : Text) :
    breakAt.go stop seen s = (seen.reverse ++ (breakAt stop s).1, (breakAt stop s).2) := by
  induction s generalizing seen with
  | nil => simp [breakAt, breakAt.go]
  | cons c r ih =>
    by_cases h : stop (c :: r)
    · simp [breakAt, breakAt.go, h]
    · simp [breakAt, breakAt.go, h, ih (c :: seen), ih [c]]

theorem breakAt_nil (stop : Text → Bool) : breakAt stop [] = ([], []) := rfl

theorem breakAt_cons (stop : Text → Bool) (c : Char) (r : Text) :
    breakAt stop (c :: r) =
      if stop (c :: r) then ([], c :: r)
      else (c :: (breakAt stop r).1, (breakAt stop r).2) := by
  by_cases h : stop (c :: r)
  · simp [breakAt, breakAt.go, h]
  · rw [breakAt, breakAt.go, if_neg h, if_neg h, breakAt_go]
    simp

theorem breakAt_append (stop : Text → Bool) (s : Text) :
    (breakAt stop s).1 ++ (breakAt stop s).2 = s := by
  induction s with
  | nil => rfl
  | cons c r ih =>
    by_cases h : stop (c :: r)
    · simp [breakAt_cons, h]
    · simp [breakAt_cons, h, ih]

theorem breakAt_stop (stop : Text → Bool) (s : Text) :
    (breakAt stop s).2 = [] ∨ stop (breakAt stop s).2 = true := by
  induction s with
  | nil => exact Or.inl rfl
  | cons c r ih =>
    by_cases h : stop (c :: r)
    · exact Or.inr (by simp [breakAt_cons, h])
    · simpa [breakAt_cons, h] using ih

theorem breakAt_before (stop : Text → Bool) (s : Text) {a b : Text} {c : Char}
    (h : (breakAt stop s).1 = a ++ c :: b) :
    stop (c :: b ++ (breakAt stop s).2) = false := by
  induction s generalizing a with
  | nil => simp [breakAt_nil] at h
  | cons x r ih =>
    by_cases hx : stop (x :: r)
    · simp [breakAt_cons, hx] at h
    · simp only [breakAt_cons, hx, Bool.false_eq_true, if_false] at h ⊢
      cases a with
      | nil =>
        simp only [List.nil_append, List.cons.injEq] at h
        obtain ⟨rfl, rfl⟩ := h
        simpa [breakAt_append] using hx
      | cons y a =>
        simp only [List.cons_append, List.cons.injEq] at h
        exact ih h.2

theorem breakAt_ne_nil {stop : Text → Bool} {c : Char} {r : Text}
    (h : stop (c :: r) = false) : (breakAt stop (c :: r)).1 ≠ [] := by
  simp [breakAt_cons, h]

end PhpImports.Text

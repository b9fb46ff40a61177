import PhpImports.Text.Break
import Mathlib.Tactic.Common

/-!
# Where a text breaks

A text breaks in front of its first nonempty suffix that is accepted. So a cut is the break exactly
if what is behind it is empty or accepted and no suffix that starts before it is
(`breakAt_eq_iff`). A run of characters of one class breaks in front of the first other one.
-/

namespace PhpImports.Text

/-- A break at a place that the text stops at, if it stops nowhere before. -/
theorem breakAt_eq {stop : Text → Bool} {a b : Text} (hb : b = [] ∨ stop b = true)
    (ha : ∀ x c y, a = x ++ c :: y → stop (c :: (y ++ b)) = false) :
    breakAt stop (a ++ b) = (a, b) := by
  induction a with
  | nil =>
    cases b with
    | nil => rfl
    | cons c b =>
      rcases hb with hnil | hstop
      · cases hnil
      · rw [List.nil_append, breakAt_cons, if_pos hstop]
  | cons c a ih =>
    have hstop : ¬ stop (c :: (a ++ b)) = true := by
      rw [ha [] c a rfl]
      exact Bool.false_ne_true
    have hrest := ih fun x d y hxy => ha (c :: x) d y (by rw [hxy]; rfl)
    rw [List.cons_append, breakAt_cons, if_neg hstop, hrest]

theorem breakAt_eq_iff {stop : Text → Bool} {a b : Text} :
    breakAt stop (a ++ b) = (a, b) ↔ (b = [] ∨ stop b = true) ∧
      ∀ x c y, a = x ++ c :: y → stop (c :: (y ++ b)) = false := by
  constructor
  · intro h
    have hstop := breakAt_stop stop (a ++ b)
    rw [h] at hstop
    refine ⟨hstop, ?_⟩
    intro x c y hxy
    have hbefore := breakAt_before stop (a ++ b) (a := x) (b := y) (c := c) (by rw [h, hxy])
    rwa [h, List.cons_append] at hbefore
  · rintro ⟨hb, ha⟩
    exact breakAt_eq hb ha

/-- A run goes as far as its class. -/
theorem takeWhile_append_eq {p : Char → Bool} {a x : Text} (ha : ∀ c ∈ a, p c = true)
    (hx : x.head?.any p = false) :
    (a ++ x).takeWhile p = a ∧ (a ++ x).dropWhile p = x := by
  rw [List.takeWhile_append_of_pos ha, List.dropWhile_append_of_pos ha]
  cases x with
  | nil => simp
  | cons c x =>
    have hc : p c = false := by simpa using hx
    simp [hc]

/-- A run holds nothing that is not in its class. -/
theorem notMem_takeWhile {p : Char → Bool} {k : Char} {s : Text} (hp : p k = false) :
    k ∉ s.takeWhile p := by
  intro hk
  rw [List.all_eq_true.1 List.all_takeWhile k hk] at hp
  cases hp

theorem head?_dropWhile_any (p : Char → Bool) (s : Text) :
    (s.dropWhile p).head?.any p = false := by
  have h := List.head?_dropWhile_not p s
  cases hd : (s.dropWhile p).head? with
  | none => rfl
  | some c => simpa [hd] using h

end PhpImports.Text

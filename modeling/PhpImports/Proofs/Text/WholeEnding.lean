import PhpImports.Proofs.Text.LineEnding
import PhpImports.Text.Break
import PhpImports.Text.Bytes

/-!
# Texts without a lone CR

If every CR of a text has LF behind it, unifying its line endings drops these CR and does nothing
else. A part of the text that does not end between CR and LF is then unified on its own
(`WholeEndings.unify_append`), so it is enough to know what a cut leaves over to know what it takes.
-/

namespace PhpImports.Text

/-- Every CR has LF behind it. -/
inductive WholeEndings : Text → Prop
  | nil : WholeEndings []
  | crlf {s : Text} (rest : WholeEndings s) : WholeEndings ('\r' :: '\n' :: s)
  | char {c : Char} {s : Text} (hc : c ≠ '\r') (rest : WholeEndings s) : WholeEndings (c :: s)

theorem unifyLineEndings_char {c : Char} (hc : c ≠ '\r') (s : Text) :
    unifyLineEndings (c :: s) = c :: unifyLineEndings s := by
  rw [unifyLineEndings_cons c s fun h => absurd h hc, if_neg hc]

/-- A CR, alone or with LF behind it, comes out as LF. -/
theorem exists_unifyLineEndings_cr (s : Text) : ∃ r, unifyLineEndings ('\r' :: s) = '\n' :: r :=
  List.head?_eq_some_iff.1 (head?_unifyLineEndings ('\r' :: s))

theorem unifyLineEndings_of_notMem {s : Text} (h : '\r' ∉ s) : unifyLineEndings s = s := by
  have happend := unifyLineEndings_append_of_notMem h []
  rwa [List.append_nil, unifyLineEndings_nil, List.append_nil] at happend

theorem unifyLineEndings_eq_nil {s : Text} : unifyLineEndings s = [] ↔ s = [] := by
  rw [← List.head?_eq_none_iff, head?_unifyLineEndings, Option.map_eq_none_iff,
    List.head?_eq_none_iff]

namespace WholeEndings

variable {s a b : Text}

theorem tail {c : Char} (h : WholeEndings (c :: s)) : WholeEndings s := by
  cases h with
  | crlf hrest => exact .char (by decide) hrest
  | char _ hrest => exact hrest

theorem right (h : WholeEndings (a ++ b)) : WholeEndings b := by
  induction a with
  | nil => exact h
  | cons c a ih => exact ih h.tail

theorem head?_of_cr (h : WholeEndings ('\r' :: s)) : s.head? = some '\n' := by
  cases h with
  | crlf _ => rfl
  | char hc _ => exact absurd rfl hc

end WholeEndings

theorem wholeEndings_iff {s : Text} :
    WholeEndings s ↔ ∀ a b, s = a ++ '\r' :: b → b.head? = some '\n' := by
  constructor
  · rintro h a b rfl
    exact h.right.head?_of_cr
  · intro h
    induction s using crlfInduction with
    | nil => exact .nil
    | crlf s ih =>
      exact .crlf (ih fun a b hs => h ('\r' :: '\n' :: a) b (by rw [hs]; rfl))
    | char c s hc ih =>
      refine .char (fun hcr => ?_) (ih fun a b hs => h (c :: a) b (by rw [hs]; rfl))
      exact hc hcr (h [] s (by rw [hcr]; rfl))

namespace WholeEndings

variable {s a b : Text}

theorem of_notMem (h : '\r' ∉ s) : WholeEndings s := by
  rw [wholeEndings_iff]
  rintro a b rfl
  exact absurd (List.mem_append_right a List.mem_cons_self) h

/-- The part of a text in front of a cut that is not between CR and LF. -/
theorem left (h : WholeEndings (a ++ b)) (hcut : b.head? = some '\n' → a.getLast? ≠ some '\r') :
    WholeEndings a := by
  rw [wholeEndings_iff]
  rintro p q rfl
  have hlf : (q ++ b).head? = some '\n' := wholeEndings_iff.1 h p (q ++ b) (by simp)
  cases q with
  | nil => exact absurd (by simp) (hcut hlf)
  | cons d q => exact hlf

theorem unify_append (h : WholeEndings a) (b : Text) :
    unifyLineEndings (a ++ b) = unifyLineEndings a ++ unifyLineEndings b := by
  induction h with
  | nil => rfl
  | crlf _ ih =>
    rw [List.cons_append, List.cons_append, unifyLineEndings_crlf, unifyLineEndings_crlf, ih]
    rfl
  | char hc _ ih =>
    rw [List.cons_append, unifyLineEndings_char hc, unifyLineEndings_char hc, ih]
    rfl

theorem mem_of_mem_unify (h : WholeEndings s) {c : Char} (hc : c ∈ s.unifyLineEndings) : c ∈ s := by
  induction h with
  | nil => exact hc
  | crlf _ ih =>
    rw [unifyLineEndings_crlf] at hc
    rcases List.mem_cons.1 hc with rfl | hc
    · simp
    · exact List.mem_cons_of_mem _ (List.mem_cons_of_mem _ (ih hc))
  | char hc' _ ih =>
    rw [unifyLineEndings_char hc'] at hc
    rcases List.mem_cons.1 hc with rfl | hc
    · exact List.mem_cons_self
    · exact List.mem_cons_of_mem _ (ih hc)

/-- A run of characters that are in no line ending. -/
theorem takeWhile_unify {p : Char → Bool} (hcr : p '\r' = false) (hlf : p '\n' = false)
    (h : WholeEndings s) : s.unifyLineEndings.takeWhile p = s.takeWhile p ∧
      s.unifyLineEndings.dropWhile p = unifyLineEndings (s.dropWhile p) := by
  induction h with
  | nil => exact ⟨rfl, rfl⟩
  | crlf _ _ =>
    rw [unifyLineEndings_crlf]
    simp [hcr, hlf, unifyLineEndings_crlf]
  | @char c s hc _ ih =>
    rw [unifyLineEndings_char hc]
    cases hp : p c with
    | true => simp [hp, ih]
    | false => simp [hp, unifyLineEndings_char hc]

/-- A break that sees line endings neither way and stops at none. -/
theorem breakAt_unify {stop : Text → Bool} (hstop : ∀ s, stop (unifyLineEndings s) = stop s)
    (hcr : ∀ s, stop ('\r' :: s) = false) (hlf : ∀ s, stop ('\n' :: s) = false)
    (h : WholeEndings s) :
    (breakAt stop s.unifyLineEndings).2 = (breakAt stop s).2.unifyLineEndings := by
  induction h with
  | nil => rfl
  | crlf _ ih =>
    rw [unifyLineEndings_crlf, breakAt_cons, breakAt_cons, breakAt_cons, hcr, hlf, hlf]
    exact ih
  | @char c s hc _ ih =>
    have hstop' := hstop (c :: s)
    rw [unifyLineEndings_char hc] at hstop'
    rw [unifyLineEndings_char hc, breakAt_cons, breakAt_cons, hstop']
    cases stop (c :: s) with
    | true => exact (unifyLineEndings_char hc s).symm
    | false => exact ih

end WholeEndings
end PhpImports.Text

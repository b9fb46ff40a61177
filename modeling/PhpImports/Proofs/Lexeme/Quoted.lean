import PhpImports.Lexeme.Code
import Mathlib.Tactic.Common

/-!
# Where quoted strings close

What is open at a place of a string is a stack in which an escape stands on a quote. A string that
closes does so at its last character, and neither what follows it nor a look ahead in it matters
(`close_append_right`, `close_left`).
-/

namespace PhpImports.Lexeme.Enclosure

/-- The characters that strings are quoted with. -/
def IsQuote (q : Char) : Prop :=
  q = '\'' ∨ q = '"' ∨ q = '\x60'

/-- Quotes are quotes, and what is hidden is hidden in a string. -/
def IsNested : List Enclosure → Prop
  | [] => True
  | .quote q :: outer => IsQuote q ∧ IsNested outer
  | .escape :: outer => (∃ q rest, outer = .quote q :: rest) ∧ IsNested outer
  | .block :: outer => IsNested outer

theorem isQuote_iff {q : Char} : IsQuote q ↔ Lead.of q = .quote := by
  constructor
  · rintro (rfl | rfl | rfl) <;> rfl
  · intro h
    have hlead := Lead.announced_of q
    rw [h] at hlead
    simpa [Lead.Announced, Lead.symbols, IsQuote] using hlead

theorem isNested_quote {q : Char} (h : IsQuote q) : IsNested [.quote q] :=
  ⟨h, trivial⟩

theorem IsNested.next {opened : List Enclosure} (h : IsNested opened) (c : Char) (r : Text) :
    IsNested (next c r opened) := by
  match opened with
  | [] => exact trivial
  | .escape :: outer => exact h.2
  | .quote q :: outer =>
    rw [Enclosure.next]
    split
    · exact ⟨⟨q, outer, rfl⟩, h⟩
    · split
      · exact h
      · split
        · exact h.2
        · exact h
  | .block :: outer =>
    rw [Enclosure.next]
    split
    · exact h
    · split
      · exact h
      · split
        · next hquote =>
          refine ⟨?_, h⟩
          rcases hquote with rfl | rfl
          · exact Or.inl rfl
          · exact Or.inr (Or.inl rfl)
        · exact h

/-- Only the character itself is looked at where the last enclosure closes. -/
theorem next_eq_nil {c : Char} {r : Text} {opened : List Enclosure} (h : IsNested opened)
    (hclose : next c r opened = []) (r' : Text) : next c r' opened = [] := by
  match opened with
  | [] => rfl
  | .escape :: outer => exact hclose
  | .quote q :: outer =>
    rw [next] at hclose ⊢
    have hbrace : IsQuote q → q ≠ '{' := by
      rintro (rfl | rfl | rfl) <;> decide
    split at hclose
    · cases hclose
    · split at hclose
      · cases hclose
      · split at hclose
        · next hescape _ hq =>
          subst hq
          rw [if_neg hescape, if_neg (fun hblock => hbrace h.1 hblock.1), if_pos rfl, hclose]
        · cases hclose
  | .block :: outer => exact hclose

theorem next_congr {c : Char} {r r' : Text} (h : r.head? = some '$' ↔ r'.head? = some '$')
    (opened : List Enclosure) : next c r opened = next c r' opened := by
  match opened with
  | [] => rfl
  | .escape :: outer => rfl
  | .block :: outer => rfl
  | .quote q :: outer => simp only [next, h]

/-- What closes at the end of a text closes there whatever follows. -/
theorem close_append_right {opened : List Enclosure} (hnested : IsNested opened) {b : Text}
    (h : close opened b = (b, some [])) (x : Text) : close opened (b ++ x) = (b, some x) := by
  induction b generalizing opened with
  | nil =>
    cases opened with
    | nil => rw [List.nil_append, close_nil]
    | cons e outer => cases h
  | cons c b ih =>
    cases opened with
    | nil => rw [close_nil] at h; cases h
    | cons e outer =>
      rw [close_cons_cons, Prod.mk.injEq, List.cons.injEq] at h
      have hrest : close (next c b (e :: outer)) b = (b, some []) := Prod.ext h.1.2 h.2
      have hnext : next c (b ++ x) (e :: outer) = next c b (e :: outer) := by
        cases b with
        | nil =>
          cases hopened : next c [] (e :: outer) with
          | nil => exact next_eq_nil hnested hopened _
          | cons e' outer' => rw [hopened] at hrest; cases hrest
        | cons d b => exact next_congr Iff.rfl _
      rw [List.cons_append, close_cons_cons, hnext, ih (hnested.next c b) hrest]

/-- What closes in a text closes at the end of what was read of it. -/
theorem close_left {opened : List Enclosure} (hnested : IsNested opened) {s b x : Text}
    (h : close opened s = (b, some x)) : close opened b = (b, some []) := by
  induction s generalizing opened b with
  | nil =>
    cases opened with
    | nil => rw [close_nil] at h; cases h; rfl
    | cons e outer => cases h
  | cons c s ih =>
    cases opened with
    | nil => rw [close_nil] at h; cases h; rfl
    | cons e outer =>
      rw [close_cons_cons] at h
      have happend := close_append (next c s (e :: outer)) s
      cases hrest : close (next c s (e :: outer)) s with
      | mk t rest =>
        rw [hrest] at h happend
        obtain ⟨rfl, rfl⟩ := Prod.mk.inj h
        have hleft := ih (hnested.next c s) hrest
        have hnext : next c t (e :: outer) = next c s (e :: outer) := by
          cases t with
          | nil =>
            cases hopened : next c s (e :: outer) with
            | nil => exact next_eq_nil hnested hopened _
            | cons e' outer' => rw [hopened] at hleft; cases hleft
          | cons d t =>
            refine next_congr ?_ _
            rw [← happend]
            rfl
        rw [close_cons_cons, hnext, hleft]

end PhpImports.Lexeme.Enclosure

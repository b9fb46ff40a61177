import PhpImports.Text.Bytes
import PhpImports.Text.Label
import PhpImports.Text.LineEnding
import Mathlib.Data.List.Chain

/-!
# Unifying line endings piece by piece

Line endings can be unified in two texts apart unless one ending is split between them
(`unifyLineEndings_append_of_seam`). A text without CR stays as it is, and two characters that are
no line ending meet in the unified text only if they meet in the text.
-/

namespace PhpImports.Text

/-- What holds of all texts may be shown with CR LF taken together. -/
theorem crlfInduction {motive : Text → Prop} (nil : motive [])
    (crlf : ∀ s, motive s → motive ('\r' :: '\n' :: s))
    (char : ∀ c s, (c = '\r' → s.head? ≠ some '\n') → motive s → motive (c :: s)) (s : Text) :
    motive s := by
  induction hn : s.length using Nat.strongRecOn generalizing s with
  | ind n ih =>
    subst hn
    rcases s with _ | ⟨c, s⟩
    · exact nil
    · by_cases hcrlf : c = '\r' ∧ s.head? = some '\n'
      · obtain ⟨rfl, hhead⟩ := hcrlf
        obtain ⟨s, rfl⟩ := List.head?_eq_some_iff.1 hhead
        exact crlf s (ih s.length (by simp only [List.length_cons]; omega) s rfl)
      · exact char c s (fun hc hlf => hcrlf ⟨hc, hlf⟩) (ih s.length (by simp) s rfl)

/-- The line endings of two texts in a row, unless a CR LF is split between them. -/
theorem unifyLineEndings_append_of_seam {a b : Text}
    (h : a.getLast? = some '\r' → b.head? ≠ some '\n') :
    unifyLineEndings (a ++ b) = unifyLineEndings a ++ unifyLineEndings b := by
  induction a using crlfInduction with
  | nil => rfl
  | crlf a ih =>
    have hlast : a.getLast? = some '\r' → b.head? ≠ some '\n' := by
      intro hcr
      apply h
      rw [List.getLast?_cons, List.getLast?_cons, hcr]
      rfl
    rw [List.cons_append, List.cons_append, unifyLineEndings_crlf, unifyLineEndings_crlf,
      ih hlast, List.cons_append]
  | char c a hc ih =>
    have hlast : a.getLast? = some '\r' → b.head? ≠ some '\n' := by
      intro hcr
      apply h
      rw [List.getLast?_cons, hcr]
      rfl
    have hhead : c = '\r' → (a ++ b).head? ≠ some '\n' := by
      rintro rfl
      cases a with
      | nil => exact h rfl
      | cons d a => exact hc rfl
    rw [List.cons_append, unifyLineEndings_cons c _ hhead, unifyLineEndings_cons c a hc,
      ih hlast, List.cons_append]

/-- A CR LF that is split between two texts is one line ending. -/
theorem unifyLineEndings_append_split {a b : Text} (ha : a.getLast? = some '\r')
    (hb : b.head? = some '\n') :
    unifyLineEndings (a ++ b) = unifyLineEndings a ++ unifyLineEndings b.tail := by
  obtain ⟨a, rfl⟩ := List.getLast?_eq_some_iff.1 ha
  obtain ⟨b, rfl⟩ := List.head?_eq_some_iff.1 hb
  have hcr : ∀ r : Text, ('\r' :: r).head? ≠ some '\n' := fun r => by simp
  rw [List.append_assoc, List.singleton_append, unifyLineEndings_append_of_seam fun _ => hcr _,
    unifyLineEndings_append_of_seam fun _ => hcr [], unifyLineEndings_crlf, List.append_assoc]
  rfl

/-- The line endings of two texts in a row, unless the second starts with LF. -/
theorem unifyLineEndings_append (a b : Text) (h : b.head? ≠ some '\n') :
    unifyLineEndings (a ++ b) = unifyLineEndings a ++ unifyLineEndings b :=
  unifyLineEndings_append_of_seam fun _ => h

theorem size_unifyLineEndings_le (s : Text) : s.unifyLineEndings.size ≤ s.size := by
  induction s using crlfInduction with
  | nil => exact Nat.le_refl _
  | crlf s ih =>
    rw [unifyLineEndings_crlf, size_cons, size_cons, size_cons]
    omega
  | char c s hc ih =>
    rw [unifyLineEndings_cons c s hc, size_cons, size_cons]
    split
    · next hcr =>
      subst hcr
      exact Nat.add_le_add_left ih 1
    · exact Nat.add_le_add_left ih _

theorem unifyLineEndings_append_of_notMem {a : Text} (ha : '\r' ∉ a) (b : Text) :
    unifyLineEndings (a ++ b) = a ++ unifyLineEndings b := by
  induction a with
  | nil => rfl
  | cons c a ih =>
    have hc : c ≠ '\r' := fun hc => ha (hc ▸ List.mem_cons_self)
    have hrest := ih fun hm => ha (List.mem_cons_of_mem c hm)
    rw [List.cons_append, unifyLineEndings_cons c _ fun h => absurd h hc, if_neg hc, hrest]
    rfl

theorem head?_unifyLineEndings (s : Text) :
    s.unifyLineEndings.head? = s.head?.map fun c => if c = '\r' then '\n' else c := by
  rcases s with _ | ⟨c, s⟩
  · rfl
  · by_cases hcrlf : c = '\r' ∧ s.head? = some '\n'
    · obtain ⟨rfl, hhead⟩ := hcrlf
      obtain ⟨s, rfl⟩ := List.head?_eq_some_iff.1 hhead
      rw [unifyLineEndings_crlf]
      rfl
    · rw [unifyLineEndings_cons c s fun hc hlf => hcrlf ⟨hc, hlf⟩]
      rfl

theorem startsLabel_unifyLineEndings (s : Text) :
    s.unifyLineEndings.startsLabel = s.startsLabel := by
  rw [startsLabel_eq_any, startsLabel_eq_any, head?_unifyLineEndings]
  cases s with
  | nil => rfl
  | cons c s =>
    by_cases hc : c = '\r'
    · subst hc
      rfl
    · simp [hc]

/-- A name goes on in the unified text where it goes on in the text. -/
theorem continuesName_unifyLineEndings (s : Text) :
    s.unifyLineEndings.continuesName = s.continuesName := by
  rcases s with _ | ⟨c, s⟩
  · rfl
  · by_cases hcr : c = '\r'
    · subst hcr
      have hhead := head?_unifyLineEndings ('\r' :: s)
      cases hs : unifyLineEndings ('\r' :: s) with
      | nil => rfl
      | cons d t =>
        rw [hs] at hhead
        obtain rfl : d = '\n' := by simpa using hhead
        rfl
    · rw [unifyLineEndings_cons c s fun hc => absurd hc hcr, if_neg hcr, continuesName,
        continuesName, startsLabel_unifyLineEndings]

theorem pair_infix_cons {a b c : Char} {s : Text} :
    [a, b] <:+: c :: s ↔ (a = c ∧ s.head? = some b) ∨ [a, b] <:+: s := by
  have hhead : [b] <+: s ↔ s.head? = some b := by
    cases s with
    | nil => simp
    | cons d s =>
      rw [List.cons_prefix_cons, List.head?_cons, Option.some.injEq]
      exact ⟨fun h => h.1.symm, fun h => ⟨h.symm, List.nil_prefix⟩⟩
  rw [List.infix_cons_iff, List.cons_prefix_cons, hhead]

/-- Two characters that are no line ending meet where they met before. -/
theorem infix_of_infix_unifyLineEndings {a b : Char} (ha : a ≠ '\n') (hb : b ≠ '\n') {s : Text}
    (h : [a, b] <:+: s.unifyLineEndings) : [a, b] <:+: s := by
  induction s using crlfInduction with
  | nil => exact h
  | crlf s ih =>
    rw [unifyLineEndings_crlf, pair_infix_cons] at h
    rcases h with ⟨hlf, -⟩ | h
    · exact absurd hlf ha
    · exact List.infix_cons (List.infix_cons (ih h))
  | char c s hc ih =>
    rw [unifyLineEndings_cons c s hc, pair_infix_cons] at h
    rcases h with ⟨hfirst, hsecond⟩ | h
    · have hsame : a = c := by
        split at hfirst
        · exact absurd hfirst ha
        · exact hfirst
      have hd : s.head? = some b := by
        rw [head?_unifyLineEndings, Option.map_eq_some_iff] at hsecond
        obtain ⟨d, hd, hunified⟩ := hsecond
        split at hunified
        · exact absurd hunified.symm hb
        · rw [hd, hunified]
      exact pair_infix_cons.2 (Or.inl ⟨hsame, hd⟩)
    · exact List.infix_cons (ih h)

/-- The end of a text with its line endings unified comes from an end of the text. -/
theorem exists_suffix_of_unifyLineEndings {r s : Text} (h : r <:+ s.unifyLineEndings) :
    ∃ r' : Text, r' <:+ s ∧ r = r'.unifyLineEndings := by
  induction s using crlfInduction with
  | nil => exact ⟨[], List.suffix_rfl, List.suffix_nil.1 h⟩
  | crlf s ih =>
    rw [unifyLineEndings_crlf, List.suffix_cons_iff] at h
    rcases h with rfl | h
    · exact ⟨_, List.suffix_rfl, (unifyLineEndings_crlf s).symm⟩
    · obtain ⟨r', hr', rfl⟩ := ih h
      exact ⟨r', hr'.trans ((List.suffix_cons _ _).trans (List.suffix_cons _ _)), rfl⟩
  | char c s hc ih =>
    rw [unifyLineEndings_cons c s hc, List.suffix_cons_iff] at h
    rcases h with rfl | h
    · exact ⟨_, List.suffix_rfl, (unifyLineEndings_cons c s hc).symm⟩
    · obtain ⟨r', hr', rfl⟩ := ih h
      exact ⟨r', hr'.trans (List.suffix_cons c s), rfl⟩

end PhpImports.Text

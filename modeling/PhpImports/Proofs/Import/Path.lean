import PhpImports.Import.Draft
import Mathlib.Data.List.Chain

/-!
# Paths

A path is rooted if it is the lone separator or starts with one separator and not with two. It is
single if no two separators stand next to each other in it. Appending a segment keeps a rooted path
rooted whatever the segment is; it keeps a single path single only if what is left of the segment
is single too. Nothing is said here about labels.
-/

namespace PhpImports.Text

/-- One separator at the start, and then something else. -/
def LeadsOnce (s : Text) : Prop :=
  ∃ c r, s = separator :: c :: r ∧ c ≠ separator

/-- The root alone, or a path that leads from the root. -/
def IsRooted (s : Text) : Prop :=
  s = [separator] ∨ s.LeadsOnce

/-- Two separators in a row, somewhere. -/
def HasDouble (s : Text) : Prop :=
  [separator, separator] <:+: s

instance (s : Text) : Decidable s.HasDouble :=
  inferInstanceAs (Decidable ([separator, separator] <:+: s))

/-- What is appended of a segment: all of it, or what comes after the separators it starts with. -/
def trimmed (path segment : Text) : Text :=
  if path.getLast? = some separator then segment.dropWhile (· = separator) else segment

theorem appendSegment_eq (path segment : Text) :
    path.appendSegment segment = path ++ path.trimmed segment := by
  rw [appendSegment, trimmed]
  split <;> rfl

theorem head?_dropWhile_separator (s : Text) :
    (s.dropWhile (· = separator)).head? ≠ some separator := by
  intro h
  have hn := List.head?_dropWhile_not (· = separator) s
  rw [h] at hn
  simp at hn

theorem LeadsOnce.append {s : Text} (h : s.LeadsOnce) (t : Text) : (s ++ t).LeadsOnce := by
  obtain ⟨c, r, rfl, hc⟩ := h
  exact ⟨c, r ++ t, rfl, hc⟩

theorem IsRooted.appendSegment {path : Text} (h : path.IsRooted) (segment : Text) :
    (path.appendSegment segment).IsRooted := by
  rw [appendSegment_eq]
  rcases h with rfl | h
  · have htrim : trimmed [separator] segment = segment.dropWhile (· = separator) := if_pos rfl
    have hhead := head?_dropWhile_separator segment
    rw [htrim]
    cases hs : segment.dropWhile (· = separator) with
    | nil => exact Or.inl rfl
    | cons c r =>
      rw [hs] at hhead
      exact Or.inr ⟨c, r, rfl, fun hc => hhead (congrArg some hc)⟩
  · exact Or.inr (h.append _)

theorem IsRooted.leadsOnce {s : Text} (h : s.IsRooted) (hlast : s.getLast? ≠ some separator) :
    s.LeadsOnce := by
  rcases h with rfl | h
  · exact absurd rfl hlast
  · exact h

theorem not_hasDouble_iff {s : Text} :
    ¬ s.HasDouble ↔ s.IsChain (fun a b => ¬ (a = separator ∧ b = separator)) := by
  rw [List.isChain_iff_forall_rel_of_append_cons_cons]
  constructor
  · rintro h a b l₁ l₂ rfl ⟨rfl, rfl⟩
    exact h ⟨l₁, l₂, by simp⟩
  · rintro h ⟨l₁, l₂, rfl⟩
    have he : l₁ ++ [separator, separator] ++ l₂ = l₁ ++ separator :: separator :: l₂ := by simp
    exact h he ⟨rfl, rfl⟩

theorem hasDouble_append {s t : Text} :
    (s ++ t).HasDouble ↔ s.HasDouble ∨ t.HasDouble ∨
      (s.getLast? = some separator ∧ t.head? = some separator) := by
  have hmeet : (∀ a ∈ s.getLast?, ∀ b ∈ t.head?, ¬ (a = separator ∧ b = separator)) ↔
      ¬ (s.getLast? = some separator ∧ t.head? = some separator) := by
    constructor
    · rintro h ⟨hs, ht⟩
      exact h separator hs separator ht ⟨rfl, rfl⟩
    · rintro h a ha b hb ⟨rfl, rfl⟩
      exact h ⟨ha, hb⟩
  have h := @List.isChain_append _ (fun a b => ¬ (a = separator ∧ b = separator)) s t
  rw [← not_hasDouble_iff, ← not_hasDouble_iff, ← not_hasDouble_iff, hmeet] at h
  tauto

/-- The seam itself never doubles a separator. -/
theorem hasDouble_appendSegment {path segment : Text} :
    (path.appendSegment segment).HasDouble ↔
      path.HasDouble ∨ (path.trimmed segment).HasDouble := by
  have hseam : ¬ (path.getLast? = some separator ∧
      (path.trimmed segment).head? = some separator) := by
    rintro ⟨hp, hs⟩
    rw [trimmed, if_pos hp] at hs
    exact head?_dropWhile_separator segment hs
  rw [appendSegment_eq, hasDouble_append]
  tauto

end PhpImports.Text

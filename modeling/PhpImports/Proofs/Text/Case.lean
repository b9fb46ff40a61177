import PhpImports.Text.Basic
import Mathlib.Tactic.Common

/-!
# Letters in lower case

Words are compared in lower case, and only ASCII letters have another one. So a text that is a word
of letters in lower case is made of ASCII letters itself (`isAlpha_of_toLower`).
-/

namespace PhpImports

theorem isAlpha_of_isUpper {c : Char} (h : c.isUpper = true) : c.isAlpha = true :=
  Bool.or_eq_true_iff.2 (.inl h)

theorem isAlpha_of_isLower {c : Char} (h : c.isLower = true) : c.isAlpha = true :=
  Bool.or_eq_true_iff.2 (.inr h)

theorem toLower_of_not_isUpper {c : Char} (h : c.isUpper = false) : c.toLower = c := by
  have hrange : ¬ (c.val ≥ 'A'.val ∧ c.val ≤ 'Z'.val) := of_decide_eq_false h
  exact dif_neg hrange

theorem isLower_toLower {c : Char} (h : c.isUpper = true) : c.toLower.isLower = true := by
  have hrange : c.val ≥ 'A'.val ∧ c.val ≤ 'Z'.val := of_decide_eq_true h
  have hlo : 65 ≤ c.val.toNat := UInt32.le_iff_toNat_le.1 hrange.1
  have hhi : c.val.toNat ≤ 90 := UInt32.le_iff_toNat_le.1 hrange.2
  have hval : (c.val + ('a'.val - 'A'.val)).toNat = c.val.toNat + 32 := by
    rw [UInt32.toNat_add, show ('a'.val - 'A'.val).toNat = 32 from rfl]
    omega
  have hlower : c.toLower.val = c.val + ('a'.val - 'A'.val) := congrArg Char.val (dif_pos hrange)
  apply Bool.and_eq_true_iff.2
  rw [decide_eq_true_iff, decide_eq_true_iff, ge_iff_le, UInt32.le_iff_toNat_le,
    UInt32.le_iff_toNat_le, hlower, hval]
  exact ⟨Nat.add_le_add_right hlo 32, Nat.add_le_add_right hhi 32⟩

/-- Only letters have another case. -/
theorem toLower_eq_iff {c k : Char} (hk : k.isAlpha = false) : c.toLower = k ↔ c = k := by
  cases hupper : c.isUpper with
  | false => rw [toLower_of_not_isUpper hupper]
  | true =>
    constructor
    · rintro rfl
      rw [isAlpha_of_isLower (isLower_toLower hupper)] at hk
      cases hk
    · rintro rfl
      rw [isAlpha_of_isUpper hupper] at hk
      cases hk

theorem isAlpha_of_toLower {c : Char} (h : c.toLower.isAlpha = true) : c.isAlpha = true := by
  cases hupper : c.isUpper with
  | true => exact isAlpha_of_isUpper hupper
  | false => rwa [toLower_of_not_isUpper hupper] at h

end PhpImports

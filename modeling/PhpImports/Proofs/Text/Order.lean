import PhpImports.Proofs.Cursor.Basic
import Mathlib.Data.List.Lex

/-!
# The order of texts

Texts are ordered by their characters, and the bytes of UTF-8 are in the same order: with the length
of its bytes the first byte of a character grows, and with the character the bytes of one length do
(`lex_utf8EncodeChar`).
-/

namespace PhpImports

section Bytes

variable {m n : Nat} {l l' : List UInt8}

theorem lex_ofNat_cons_of_lt (hn : n < 256) (h : m < n) :
    List.Lex (· < ·) (UInt8.ofNat m :: l) (UInt8.ofNat n :: l') := by
  refine .rel ?_
  rw [UInt8.lt_iff_toNat_lt, UInt8.toNat_ofNat', UInt8.toNat_ofNat']
  omega

/-- One digit to base 64 decides, if those before it are the same. -/
theorem lex_tail_one (h : m % 64 < n % 64) :
    List.Lex (· < ·) (UInt8.ofNat (m % 64 + 128) :: l) (UInt8.ofNat (n % 64 + 128) :: l') :=
  lex_ofNat_cons_of_lt (by omega) (by omega)

theorem lex_tail_two (h : m % 4096 < n % 4096) :
    List.Lex (· < ·) (UInt8.ofNat (m / 64 % 64 + 128) :: UInt8.ofNat (m % 64 + 128) :: l)
      (UInt8.ofNat (n / 64 % 64 + 128) :: UInt8.ofNat (n % 64 + 128) :: l') := by
  by_cases hfirst : m / 64 % 64 = n / 64 % 64
  · rw [hfirst]
    exact .cons (lex_tail_one (by omega))
  · exact lex_ofNat_cons_of_lt (by omega) (by omega)

theorem lex_tail_three (h : m % 262144 < n % 262144) :
    List.Lex (· < ·)
      (UInt8.ofNat (m / 4096 % 64 + 128) :: UInt8.ofNat (m / 64 % 64 + 128) ::
        UInt8.ofNat (m % 64 + 128) :: l)
      (UInt8.ofNat (n / 4096 % 64 + 128) :: UInt8.ofNat (n / 64 % 64 + 128) ::
        UInt8.ofNat (n % 64 + 128) :: l') := by
  by_cases hfirst : m / 4096 % 64 = n / 4096 % 64
  · rw [hfirst]
    exact .cons (lex_tail_two (by omega))
  · exact lex_ofNat_cons_of_lt (by omega) (by omega)

end Bytes

theorem lex_utf8EncodeChar {c d : Char} (h : c < d) (s t : List UInt8) :
    List.Lex (· < ·) (String.utf8EncodeChar c ++ s) (String.utf8EncodeChar d ++ t) := by
  have hlt : c.val.toNat < d.val.toNat := UInt32.lt_iff_toNat_lt.1 h
  have hd : d.val.toNat < 1114112 := by
    rcases d.valid with hd | hd
    · exact Nat.lt_of_lt_of_le hd (by decide)
    · exact hd.2
  simp only [String.utf8EncodeChar]
  generalize c.val.toNat = m at hlt ⊢
  generalize d.val.toNat = n at hlt hd ⊢
  by_cases hone : m ≤ 127
  · rw [if_pos hone]
    split_ifs <;> exact lex_ofNat_cons_of_lt (by omega) (by omega)
  · rw [if_neg hone, if_neg (show ¬ n ≤ 127 by omega)]
    by_cases htwo : m ≤ 2047
    · rw [if_pos htwo]
      by_cases hn : n ≤ 2047 ∧ m / 64 % 32 = n / 64 % 32
      · rw [if_pos hn.1, hn.2]
        exact .cons (lex_tail_one (by omega))
      · split_ifs <;> exact lex_ofNat_cons_of_lt (by omega) (by omega)
    · rw [if_neg htwo, if_neg (show ¬ n ≤ 2047 by omega)]
      by_cases hthree : m ≤ 65535
      · rw [if_pos hthree]
        by_cases hn : n ≤ 65535 ∧ m / 4096 % 16 = n / 4096 % 16
        · rw [if_pos hn.1, hn.2]
          exact .cons (lex_tail_two (by omega))
        · split_ifs <;> exact lex_ofNat_cons_of_lt (by omega) (by omega)
      · rw [if_neg hthree, if_neg (show ¬ n ≤ 65535 by omega)]
        by_cases hfirst : m / 262144 % 8 = n / 262144 % 8
        · rw [hfirst]
          exact .cons (lex_tail_three (by omega))
        · exact lex_ofNat_cons_of_lt (by omega) (by omega)

namespace Text

variable {s t u : Text}

theorem le_total (s t : Text) : (s.le t || t.le s) = true := by
  fun_induction le s t with
  | case1 t => rfl
  | case2 c s => rfl
  | case3 c s t ih => rwa [le, if_pos rfl]
  | case4 a s b t hne =>
    rw [le, if_neg (Ne.symm hne), Bool.or_eq_true, decide_eq_true_iff, decide_eq_true_iff]
    rcases Nat.lt_or_gt_of_ne (mt Char.toNat_inj.1 hne) with h | h
    · exact Or.inl h
    · exact Or.inr h

theorem le_trans (hst : s.le t = true) (htu : t.le u = true) : s.le u = true := by
  fun_induction le s t generalizing u with
  | case1 t => rfl
  | case2 c s => cases hst
  | case3 c s t ih =>
    cases u with
    | nil => cases htu
    | cons d u =>
      rw [le] at htu ⊢
      split_ifs at htu ⊢ with hcd
      · exact ih hst htu
      · exact htu
  | case4 a s b t hab =>
    cases u with
    | nil => cases htu
    | cons d u =>
      have hlt : a < b := of_decide_eq_true hst
      have had : a < d := by
        rw [le] at htu
        split_ifs at htu with hbd
        · exact hbd ▸ hlt
        · exact Nat.lt_trans hlt (of_decide_eq_true htu)
      rw [le, if_neg (Nat.ne_of_lt had ∘ congrArg Char.toNat), decide_eq_true had]

/-- In the order of bytes one text comes before the other. -/
def Precedes (s t : Text) : Prop :=
  List.Lex (· < ·) s.bytes t.bytes

theorem precedes_of_le (h : s.le t = true) (hne : s ≠ t) : s.Precedes t := by
  rw [Precedes]
  fun_induction le s t with
  | case1 t =>
    obtain ⟨c, t, rfl⟩ := List.exists_cons_of_ne_nil (Ne.symm hne)
    obtain ⟨b, bs, hbytes⟩ := List.exists_cons_of_ne_nil (String.utf8EncodeChar_ne_nil (c := c))
    rw [bytes_cons, hbytes]
    exact .nil
  | case2 c s => cases h
  | case3 c s t ih =>
    rw [bytes_cons, bytes_cons]
    exact List.Lex.append_left _ (ih h fun hst => hne (hst ▸ rfl)) _
  | case4 a s b t hab => exact lex_utf8EncodeChar (of_decide_eq_true h) _ _

end Text

end PhpImports

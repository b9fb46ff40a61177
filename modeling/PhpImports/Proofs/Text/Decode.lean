import PhpImports.Proofs.Text.Skeleton
import PhpImports.Text.Decode
import Mathlib.Algebra.Group.Nat.Defs

/-!
# Decoding without encodings

However wrong the bytes are, each run of bytes beyond ASCII is decoded into a run of characters
beyond ASCII, and all other bytes are decoded into themselves. So the skeleton of a decoded text can
be read off its bytes (`skeleton_decode`).
-/

namespace PhpImports.Text

/-- The bytes with one and the same character in place of every run of bytes beyond ASCII. -/
def outline : List UInt8 → Text
  | [] => []
  | b :: bs =>
    if b < 0x80 then Char.ofNat b.toNat :: outline bs
    else if bs.head?.any (0x80 ≤ ·) then outline bs else standIn :: outline bs

variable {b : UInt8} {bs : List UInt8} {u : Unfinished}

theorem toNat_ofNat {n : Nat} (h : n.isValidChar) : (Char.ofNat n).toNat = n := by
  rw [Char.ofNat, dif_pos h]
  rfl

namespace Unfinished

/-- The least character that can come of `u`. -/
def least (u : Unfinished) : Nat :=
  (u.bits * 64 + (u.low.toNat - 0x80)) * 64 ^ (u.missing - 1)

/-- One more than the greatest character that can come of `u`. -/
def bound (u : Unfinished) : Nat :=
  (u.bits * 64 + (u.high.toNat - 0x80) + 1) * 64 ^ (u.missing - 1)

/-- All that can come of `u` are characters beyond ASCII. -/
structure IsBegun (u : Unfinished) : Prop where
  missing : u.missing = 1 ∨ u.missing = 2 ∨ u.missing = 3
  tail : 0x80 ≤ u.low.toNat ∧ u.high.toNat ≤ 0xBF
  foreign : 0x80 ≤ u.least
  scalar : u.bound ≤ 0xD800 ∨ 0xE000 ≤ u.least ∧ u.bound ≤ 0x110000

/-- What a byte beyond ASCII gives: characters beyond ASCII, or the beginning of one. -/
structure IsForeignStep (x : Text × Option Unfinished) : Prop where
  foreign : ∀ c ∈ x.1, isForeign c = true
  begun : ∀ u, x.2 = some u → IsBegun u
  progress : x.2 = none → x.1 ≠ []

theorem isForeign_replacement : isForeign replacement = true := by decide

theorem start_ascii (hb : b < 0x80) : start b = ([Char.ofNat b.toNat], none) := by
  rw [start, if_pos hb]

theorem isForeignStep_done {c : Char} (hc : isForeign c = true) : IsForeignStep ([c], none) := by
  refine ⟨?_, by simp, by simp⟩
  intro d hd
  rwa [List.mem_singleton.1 hd]

theorem isForeignStep_begun (hu : IsBegun u) : IsForeignStep ([], some u) := by
  refine ⟨by simp, ?_, by simp⟩
  rintro _ ⟨⟩
  exact hu

theorem isForeignStep_start (hb : ¬ b < 0x80) : IsForeignStep (start b) := by
  rw [start, if_neg hb]
  split
  · exact isForeignStep_done isForeign_replacement
  split
  · next hlead htwo =>
    have hlead : ¬ b.toNat < 0xC2 := hlead
    have htwo : b.toNat < 0xE0 := htwo
    refine isForeignStep_begun ⟨.inl rfl, ⟨by simp, by simp⟩, ?_, .inl ?_⟩
    · simp [least]
      omega
    · simp [bound]
      omega
  split
  · exact isForeignStep_begun ⟨.inr (.inl rfl), by decide, by decide, by decide⟩
  split
  · exact isForeignStep_begun ⟨.inr (.inl rfl), by decide, by decide, by decide⟩
  split
  · next htwo h0 hd hthree =>
    have htwo : ¬ b.toNat < 0xE0 := htwo
    have hthree : b.toNat < 0xF0 := hthree
    have h0 : b.toNat ≠ 0xE0 := fun h => h0 (UInt8.toNat.inj h)
    have hd : b.toNat ≠ 0xED := fun h => hd (UInt8.toNat.inj h)
    refine isForeignStep_begun ⟨.inr (.inl rfl), ⟨by simp, by simp⟩, ?_, ?_⟩
    · simp [least]
      omega
    · simp [least, bound]
      omega
  split
  · exact isForeignStep_begun ⟨.inr (.inr rfl), by decide, by decide, by decide⟩
  split
  · next hthree h0 hfour =>
    have hthree : ¬ b.toNat < 0xF0 := hthree
    have hfour : b.toNat < 0xF4 := hfour
    have h0 : b.toNat ≠ 0xF0 := fun h => h0 (UInt8.toNat.inj h)
    refine isForeignStep_begun ⟨.inr (.inr rfl), ⟨by simp, by simp⟩, ?_, ?_⟩
    · simp [least]
      omega
    · simp [least, bound]
      omega
  split
  · exact isForeignStep_begun ⟨.inr (.inr rfl), by decide, by decide, by decide⟩
  · exact isForeignStep_done isForeign_replacement

/-- The bits with one more byte are between those with the least and the greatest byte. -/
theorem bits_between (htail : 0x80 ≤ u.low.toNat) (hin : u.low ≤ b ∧ b ≤ u.high) :
    u.bits * 64 + (u.low.toNat - 0x80) ≤ u.bits * 64 + (b.toNat - 0x80) ∧
      u.bits * 64 + (b.toNat - 0x80) ≤ u.bits * 64 + (u.high.toNat - 0x80) := by
  have hlow : u.low.toNat ≤ b.toNat := hin.1
  have hhigh : b.toNat ≤ u.high.toNat := hin.2
  omega

/-- Each byte narrows down what can come of `u`. -/
theorem IsBegun.continued (hu : IsBegun u) (hmore : 1 < u.missing) {bits : Nat}
    (hlow : u.bits * 64 + (u.low.toNat - 0x80) ≤ bits)
    (hhigh : bits ≤ u.bits * 64 + (u.high.toNat - 0x80)) :
    IsBegun ⟨bits, u.missing - 1, 0x80, 0xBF⟩ := by
  have hwidth : ∀ n, n * 64 * 64 ^ (u.missing - 1 - 1) = n * 64 ^ (u.missing - 1) := by
    intro n
    have hmissing : u.missing - 1 - 1 + 1 = u.missing - 1 := by omega
    rw [Nat.mul_assoc, Nat.mul_comm 64, ← Nat.pow_succ, Nat.succ_eq_add_one, hmissing]
  have hleast : u.least ≤ Unfinished.least ⟨bits, u.missing - 1, 0x80, 0xBF⟩ := by
    have hzero : (0x80 : UInt8).toNat - 0x80 = 0 := by decide
    simp only [least, hzero, Nat.add_zero]
    rw [hwidth]
    exact Nat.mul_le_mul_right _ hlow
  have hbound : Unfinished.bound ⟨bits, u.missing - 1, 0x80, 0xBF⟩ ≤ u.bound := by
    have hall : (0xBF : UInt8).toNat - 0x80 = 63 := by decide
    have hnext : bits * 64 + 63 + 1 = (bits + 1) * 64 := by omega
    simp only [bound, hall, hnext]
    rw [hwidth]
    exact Nat.mul_le_mul_right _ (Nat.succ_le_succ hhigh)
  refine ⟨?_, ⟨by simp, by simp⟩, Nat.le_trans hu.foreign hleast, ?_⟩
  · have hmissing := hu.missing
    simp only
    omega
  · rcases hu.scalar with hscalar | hscalar
    · exact .inl (Nat.le_trans hbound hscalar)
    · exact .inr ⟨Nat.le_trans hscalar.1 hleast, Nat.le_trans hbound hscalar.2⟩

/-- The last byte makes a character of `u`. -/
theorem IsBegun.isForeign (hu : IsBegun u) (hlast : u.missing ≤ 1) {bits : Nat}
    (hlow : u.bits * 64 + (u.low.toNat - 0x80) ≤ bits)
    (hhigh : bits ≤ u.bits * 64 + (u.high.toNat - 0x80)) :
    isForeign (Char.ofNat bits) = true := by
  obtain ⟨hmissing, -, hforeign, hscalar⟩ := hu
  have hone : u.missing = 1 := by omega
  rw [least, hone, Nat.sub_self, Nat.pow_zero, Nat.mul_one] at hforeign hscalar
  rw [bound, hone, Nat.sub_self, Nat.pow_zero, Nat.mul_one] at hscalar
  have hvalid : bits.isValidChar := by
    rw [Nat.isValidChar]
    omega
  rw [PhpImports.isForeign, decide_eq_true_iff, toNat_ofNat hvalid]
  omega

/-- What is begun goes on as it began, or is given up. -/
theorem isForeignStep_next (hu : IsBegun u) (hb : ¬ b < 0x80) : IsForeignStep (u.next b) := by
  rw [next]
  split
  · next hin =>
    obtain ⟨hlow, hhigh⟩ := bits_between hu.tail.1 hin
    simp only
    split
    · next hlast => exact isForeignStep_done (hu.isForeign hlast hlow hhigh)
    · next hmore =>
      exact isForeignStep_begun (hu.continued (Nat.lt_of_not_le hmore) hlow hhigh)
  · have hstart := isForeignStep_start hb
    refine ⟨?_, hstart.begun, by simp⟩
    intro c hc
    rcases List.mem_cons.1 hc with rfl | hc
    · exact isForeign_replacement
    · exact hstart.foreign c hc

/-- A byte of ASCII is no part of what is begun. -/
theorem next_ascii (hu : IsBegun u) (hb : b < 0x80) :
    u.next b = ([replacement, Char.ofNat b.toNat], none) := by
  have hlow : ¬ (u.low ≤ b ∧ b ≤ u.high) := by
    intro hin
    have htail := hu.tail.1
    have hlow : u.low.toNat ≤ b.toNat := hin.1
    have hascii : b.toNat < 0x80 := hb
    omega
  rw [next, if_neg hlow, start_ascii hb]

end Unfinished

open Unfinished

theorem outline_ascii (hb : b < 0x80) (bs : List UInt8) :
    outline (b :: bs) = Char.ofNat b.toNat :: outline bs := by
  rw [outline, if_pos hb]

theorem outline_foreign (hb : ¬ b < 0x80) (bs : List UInt8) : outline (b :: bs) =
    if bs.head?.any (0x80 ≤ ·) then outline bs else standIn :: outline bs := by
  rw [outline, if_neg hb]

/-- All bytes beyond ASCII are alike. -/
theorem outline_alike (hb : ¬ b < 0x80) (bs : List UInt8) :
    outline (b :: bs) = outline (0x80 :: bs) := by
  rw [outline_foreign hb, outline_foreign (by decide)]

/-- A run does not change with its length. -/
theorem outline_run (hb : ¬ b < 0x80) (bs : List UInt8) :
    outline (0x80 :: b :: bs) = outline (0x80 :: bs) := by
  have hhead : (b :: bs).head?.any (0x80 ≤ ·) = true := decide_eq_true (UInt8.not_lt.1 hb)
  rw [outline_foreign (by decide), if_pos hhead, outline_alike hb]

theorem isForeign_ofNat (hb : b < 0x80) : isForeign (Char.ofNat b.toNat) = false := by
  have hascii : b.toNat < 0x80 := hb
  have hvalid : b.toNat.isValidChar := Or.inl (by omega)
  rwa [isForeign_eq_false_iff, toNat_ofNat hvalid]

theorem head?_outline (bs : List UInt8) :
    (outline bs).head?.any isForeign = bs.head?.any (0x80 ≤ ·) := by
  induction bs with
  | nil => rfl
  | cons b bs ih =>
    rw [List.head?_cons, Option.any_some]
    by_cases hb : b < 0x80
    · rw [outline_ascii hb, decide_eq_false (UInt8.not_le.2 hb)]
      exact isForeign_ofNat hb
    · rw [outline_foreign hb, decide_eq_true (UInt8.not_lt.1 hb)]
      split
      · next hrun => exact ih.trans hrun
      · exact isForeign_standIn

variable {c : Char} {cs r : Text}

/-- A foreign character is in the skeleton what a byte beyond ASCII is in the outline. -/
theorem skeleton_foreign (hc : isForeign c = true) (hr : skeleton r = outline bs) :
    skeleton (c :: r) = outline (0x80 :: bs) := by
  have hhead : r.head?.any isForeign = bs.head?.any (0x80 ≤ ·) := by
    rw [← head?_outline, ← hr, any_head?_skeleton blind_isForeign]
  rw [skeleton, if_pos hc, hhead, hr, outline_foreign (by decide)]

theorem skeleton_append_foreign (hcs : ∀ c ∈ cs, isForeign c = true)
    (hr : skeleton r = outline (0x80 :: bs) ∨ cs ≠ [] ∧ skeleton r = outline bs) :
    skeleton (cs ++ r) = outline (0x80 :: bs) := by
  induction cs with
  | nil => exact hr.resolve_right fun h => h.1 rfl
  | cons c cs ih =>
    have hc := hcs c List.mem_cons_self
    by_cases hlast : cs = [] ∧ skeleton r = outline bs
    · obtain ⟨rfl, hplain⟩ := hlast
      exact skeleton_foreign hc hplain
    · have hrest : skeleton (cs ++ r) = outline (0x80 :: bs) := by
        refine ih (fun d hd => hcs d (List.mem_cons_of_mem c hd)) ?_
        rcases hr with hr | ⟨-, hr⟩
        · exact .inl hr
        · exact .inr ⟨fun hnil => hlast ⟨hnil, hr⟩, hr⟩
      rw [List.cons_append, skeleton_foreign hc hrest, outline_run (by decide)]

theorem go_none (seen : Text) (b : UInt8) (bs : List UInt8) : decode.go seen none (b :: bs) =
    decode.go ((start b).1.reverse ++ seen) (start b).2 bs :=
  rfl

theorem go_some (seen : Text) (u : Unfinished) (b : UInt8) (bs : List UInt8) :
    decode.go seen (some u) (b :: bs) = decode.go ((u.next b).1.reverse ++ seen) (u.next b).2 bs :=
  rfl

theorem go_append (seen : Text) (begun : Option Unfinished) (bs : List UInt8) :
    decode.go seen begun bs = seen.reverse ++ decode.go [] begun bs := by
  induction bs generalizing seen begun with
  | nil => cases begun <;> simp [decode.go]
  | cons b bs ih =>
    cases begun with
    | none =>
      rw [go_none, go_none, ih, ih (_ ++ []), List.reverse_append, List.append_nil,
        List.append_assoc]
    | some u =>
      rw [go_some, go_some, ih, ih (_ ++ []), List.reverse_append, List.append_nil,
        List.append_assoc]

/-- What is left of the bytes is decoded into their outline, behind what is begun. -/
theorem skeleton_go (bs : List UInt8) : skeleton (decode.go [] none bs) = outline bs ∧
    ∀ u, IsBegun u → skeleton (decode.go [] (some u) bs) = outline (0x80 :: bs) := by
  induction bs with
  | nil => exact ⟨rfl, fun _ _ => skeleton_foreign (r := []) isForeign_replacement rfl⟩
  | cons b bs ih =>
    have hstep : ∀ x, IsForeignStep x →
        skeleton (decode.go (x.1.reverse ++ []) x.2 bs) = outline (0x80 :: bs) := by
      rintro ⟨cs, begun⟩ hx
      rw [go_append, List.append_nil, List.reverse_reverse]
      refine skeleton_append_foreign hx.foreign ?_
      cases begun with
      | none => exact .inr ⟨hx.progress rfl, ih.1⟩
      | some u => exact .inl (ih.2 u (hx.begun u rfl))
    by_cases hb : b < 0x80
    · have hplain : skeleton (Char.ofNat b.toNat :: decode.go [] none bs) = outline (b :: bs) := by
        rw [skeleton_ascii (isForeign_ofNat hb), ih.1, outline_ascii hb]
      refine ⟨?_, fun u hu => ?_⟩
      · rw [go_none, start_ascii hb, go_append]
        exact hplain
      · rw [go_some, next_ascii hu hb, go_append]
        exact skeleton_foreign isForeign_replacement hplain
    · refine ⟨?_, fun u hu => ?_⟩
      · rw [go_none, hstep _ (isForeignStep_start hb), outline_alike hb]
      · rw [go_some, hstep _ (isForeignStep_next hu hb), outline_run hb]

/-- The skeleton of a decoded text is the outline of its bytes, whether they are UTF-8 or not. -/
theorem skeleton_decode (bytes : List UInt8) : (decode bytes).skeleton = outline bytes :=
  (skeleton_go bytes).1

end PhpImports.Text

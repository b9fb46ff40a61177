import PhpImports.Proofs.Cursor.Basic
import PhpImports.Proofs.Text.Decode

/-!
# Decoding UTF-8

The bytes of a character are a lead byte and six bits in each byte behind it. What the lead byte
begins is finished by those, so bytes in UTF-8 are decoded into the text that they are of, whatever
stands behind them (`decode_append`).
-/

namespace PhpImports.Text

/-- The bytes of a character behind its lead byte, `k` of them. -/
def tailBytes (n : Nat) : Nat → List UInt8
  | 0 => []
  | k + 1 => UInt8.ofNat (n / 64 ^ k % 64 + 128) :: tailBytes n k

variable {m n k : Nat} {low high : UInt8}

theorem toNat_ofNat_byte (h : m < 256) : (UInt8.ofNat m).toNat = m :=
  Nat.mod_eq_of_lt h

namespace Unfinished

/-- The next byte brings six bits more. -/
theorem next_tailByte (hlow : low.toNat ≤ n / 64 ^ k % 64 + 128)
    (hhigh : n / 64 ^ k % 64 + 128 ≤ high.toNat) :
    next ⟨n / 64 ^ (k + 1), k + 1, low, high⟩ (UInt8.ofNat (n / 64 ^ k % 64 + 128)) =
      if k = 0 then ([Char.ofNat n], none) else ([], some ⟨n / 64 ^ k, k, 0x80, 0xBF⟩) := by
  have hbyte : (UInt8.ofNat (n / 64 ^ k % 64 + 128)).toNat = n / 64 ^ k % 64 + 128 :=
    toNat_ofNat_byte (by omega)
  have hbits : n / 64 ^ (k + 1) * 64 + (n / 64 ^ k % 64 + 128 - 0x80) = n / 64 ^ k := by
    rw [Nat.pow_succ, ← Nat.div_div_eq_div_mul]
    omega
  have hwithin : low ≤ UInt8.ofNat (n / 64 ^ k % 64 + 128) ∧
      UInt8.ofNat (n / 64 ^ k % 64 + 128) ≤ high := by
    rw [UInt8.le_iff_toNat_le, UInt8.le_iff_toNat_le, hbyte]
    exact ⟨hlow, hhigh⟩
  rw [next, if_pos hwithin, hbyte, hbits]
  by_cases hk : k = 0
  · subst hk
    simp
  · simp [hk]

/-- A lead byte of `n` has begun a character of which `k + 1` bytes are to come, and the next one of
`n` is within its bounds. -/
def Begins (n k : Nat) (x : Text × Option Unfinished) : Prop :=
  ∃ low high : UInt8, x = ([], some ⟨n / 64 ^ (k + 1), k + 1, low, high⟩) ∧
    low.toNat ≤ n / 64 ^ k % 64 + 128 ∧ n / 64 ^ k % 64 + 128 ≤ high.toNat

theorem begins_two (hlow : 0x80 ≤ n) (hhigh : n < 0x800) :
    Begins n 0 (start (UInt8.ofNat (n / 64 + 0xC0))) := by
  have hbyte := toNat_ofNat_byte (show n / 64 + 0xC0 < 256 by omega)
  have hbits : n / 64 + 0xC0 - 0xC0 = n / 64 := by omega
  refine ⟨0x80, 0xBF, ?_, ?_⟩
  · simp only [start, UInt8.lt_iff_toNat_lt, hbyte, UInt8.reduceToNat, hbits]
    rw [if_neg (by omega), if_neg (by omega), if_pos (by omega)]
    rfl
  · simp
    omega

/-- Of three bytes, the second one is bounded where a shorter spelling or a surrogate would be. -/
theorem begins_three (hlow : 0x800 ≤ n) (hhigh : n < 0x10000)
    (hscalar : n < 0xD800 ∨ 0xE000 ≤ n) :
    Begins n 1 (start (UInt8.ofNat (n / 4096 + 0xE0))) := by
  have hbyte := toNat_ofNat_byte (show n / 4096 + 0xE0 < 256 by omega)
  have hbits : n / 4096 + 0xE0 - 0xE0 = n / 64 ^ 2 := by omega
  simp only [start, UInt8.lt_iff_toNat_lt, ← UInt8.toNat_inj, hbyte, UInt8.reduceToNat, hbits]
  rw [if_neg (by omega), if_neg (by omega), if_neg (by omega)]
  by_cases hshort : n / 4096 = 0
  · rw [if_pos (by omega)]
    have hzero : n / 64 ^ 2 = 0 := by omega
    refine ⟨0xA0, 0xBF, by rw [hzero], ?_⟩
    simp
    omega
  rw [if_neg (by omega)]
  by_cases hsurrogate : n / 4096 = 13
  · rw [if_pos (by omega)]
    have hbits : n / 64 ^ 2 = 13 := by omega
    refine ⟨0x80, 0x9F, by rw [hbits], ?_⟩
    simp
    omega
  · rw [if_neg (by omega), if_pos (by omega)]
    refine ⟨0x80, 0xBF, rfl, ?_⟩
    simp
    omega

/-- Of four bytes, it is bounded where a shorter spelling or no character would be. -/
theorem begins_four (hlow : 0x10000 ≤ n) (hhigh : n < 0x110000) :
    Begins n 2 (start (UInt8.ofNat (n / 262144 + 0xF0))) := by
  have hbyte := toNat_ofNat_byte (show n / 262144 + 0xF0 < 256 by omega)
  have hbits : n / 262144 + 0xF0 - 0xF0 = n / 64 ^ 3 := by omega
  simp only [start, UInt8.lt_iff_toNat_lt, ← UInt8.toNat_inj, hbyte, UInt8.reduceToNat, hbits]
  rw [if_neg (by omega), if_neg (by omega), if_neg (by omega), if_neg (by omega),
    if_neg (by omega), if_neg (by omega)]
  by_cases hshort : n / 262144 = 0
  · rw [if_pos (by omega)]
    have hzero : n / 64 ^ 3 = 0 := by omega
    refine ⟨0x90, 0xBF, by rw [hzero], ?_⟩
    simp
    omega
  rw [if_neg (by omega)]
  by_cases hlast : n / 262144 = 4
  · rw [if_neg (by omega), if_pos (by omega)]
    have hbits : n / 64 ^ 3 = 4 := by omega
    refine ⟨0x80, 0x8F, by rw [hbits], ?_⟩
    simp
    omega
  · rw [if_pos (by omega)]
    refine ⟨0x80, 0xBF, rfl, ?_⟩
    simp
    omega

end Unfinished

/-- A character that has begun is finished by the bytes behind the lead byte, the first of which may
have bounds of its own. -/
theorem go_tailBytes (hlow : low.toNat ≤ n / 64 ^ k % 64 + 128)
    (hhigh : n / 64 ^ k % 64 + 128 ≤ high.toNat) (bs : List UInt8) :
    decode.go [] (some ⟨n / 64 ^ (k + 1), k + 1, low, high⟩) (tailBytes n (k + 1) ++ bs) =
      Char.ofNat n :: decode.go [] none bs := by
  induction k generalizing low high with
  | zero =>
    rw [tailBytes, List.cons_append, go_some, Unfinished.next_tailByte hlow hhigh, go_append]
    rfl
  | succ k ih =>
    rw [tailBytes, List.cons_append, go_some, Unfinished.next_tailByte hlow hhigh]
    exact ih (by simp) (by simp; omega)

theorem go_of_begins {b : UInt8} (hb : Unfinished.Begins n k (Unfinished.start b))
    (bs : List UInt8) : decode.go [] none (b :: (tailBytes n (k + 1) ++ bs)) =
      Char.ofNat n :: decode.go [] none bs := by
  obtain ⟨low, high, hstart, hlow, hhigh⟩ := hb
  rw [go_none, hstart]
  exact go_tailBytes hlow hhigh bs

/-- A character is one byte of ASCII, or a lead byte that begins it and the bytes behind it. -/
theorem utf8EncodeChar_cases (c : Char) :
    (c.val.toNat < 0x80 ∧ String.utf8EncodeChar c = [UInt8.ofNat c.val.toNat]) ∨
      ∃ b k, Unfinished.Begins c.val.toNat k (Unfinished.start b) ∧
        String.utf8EncodeChar c = b :: tailBytes c.val.toNat (k + 1) := by
  have hscalar : c.val.toNat < 0xD800 ∨ 0xDFFF < c.val.toNat ∧ c.val.toNat < 0x110000 := c.valid
  rw [String.utf8EncodeChar]
  generalize c.val.toNat = n at hscalar ⊢
  split_ifs with hone htwo hthree
  · exact .inl ⟨Nat.lt_succ_of_le hone, rfl⟩
  · have hlead : n / 64 % 32 + 192 = n / 64 + 0xC0 := by omega
    refine .inr ⟨_, 0, Unfinished.begins_two (by omega) (by omega), ?_⟩
    simp [hlead, tailBytes]
  · have hlead : n / 4096 % 16 + 224 = n / 4096 + 0xE0 := by omega
    refine .inr ⟨_, 1, Unfinished.begins_three (by omega) (by omega) (by omega), ?_⟩
    simp [hlead, tailBytes]
  · have hlead : n / 262144 % 8 + 240 = n / 262144 + 0xF0 := by omega
    refine .inr ⟨_, 2, Unfinished.begins_four (by omega) (by omega), ?_⟩
    simp [hlead, tailBytes]

theorem go_utf8EncodeChar (c : Char) (bs : List UInt8) :
    decode.go [] none (String.utf8EncodeChar c ++ bs) = c :: decode.go [] none bs := by
  have hchar : Char.ofNat c.val.toNat = c := Char.ofNat_toNat c
  rcases utf8EncodeChar_cases c with ⟨hascii, hbytes⟩ | ⟨b, k, hbegins, hbytes⟩
  · have hbyte := toNat_ofNat_byte (show c.val.toNat < 256 by omega)
    have hlt : UInt8.ofNat c.val.toNat < 0x80 := by
      rw [UInt8.lt_iff_toNat_lt, hbyte]
      exact hascii
    rw [hbytes, List.singleton_append, go_none, Unfinished.start_ascii hlt, go_append, hbyte, hchar]
    rfl
  · rw [hbytes, List.cons_append, go_of_begins hbegins, hchar]

/-- Bytes in UTF-8 are decoded into their text, and what stands behind them is decoded alone. -/
theorem decode_append (s : Text) (bs : List UInt8) : decode (s.bytes ++ bs) = s ++ decode bs := by
  induction s with
  | nil => rfl
  | cons c s ih =>
    rw [bytes_cons, List.append_assoc, decode, go_utf8EncodeChar]
    exact congrArg (c :: ·) ih

theorem decode_bytes (s : Text) : decode s.bytes = s := by
  have happend := decode_append s []
  rwa [List.append_nil, show decode [] = [] from rfl, List.append_nil] at happend

end PhpImports.Text

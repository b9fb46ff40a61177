import PhpImports.Cursor.Cut
import PhpImports.Lexeme.Basic
import PhpImports.Proofs.Text.Case
import Mathlib.Tactic.Common

/-!
# Reading at byte offsets

A text can also be read in place: an offset into its bytes is moved by hand, bytes are looked at and
texts are cut out. Apart from the faults of that nothing here fails. What a read gives where a
character starts is what it gives on the text that is left (`At`).
The bytes of a character beyond ASCII are never those of an ASCII character.
-/

namespace PhpImports

namespace Cursor

def byteAt? (s : Text) (i : Nat) : Option UInt8 :=
  s.bytes[i]?

/-- The byte is an ASCII character of the class. -/
def byteIs (P : Char → Bool) (b : UInt8) : Bool :=
  b < 0x80 && P (Char.ofUInt8 b)

/-- There is a byte at `i`, and it is an ASCII character of the class. -/
def peek (s : Text) (i : Nat) (P : Char → Bool) : Bool :=
  (byteAt? s i).any (byteIs P)

/-- The character that starts at `i`, if one does. -/
def charAt? (s : Text) (i : Nat) : Option Char :=
  (s.dropBytes? i).bind List.head?

/-- The bytes from `i` on are those of the pattern, and then any. -/
def reads (s : Text) (i : Nat) : List Char → Bool
  | [] => true
  | k :: ks => peek s i (· = k) && reads s (i + 1) ks

/-- The bytes from `i` on, which have to be there, start with the pattern. -/
def sees (s : Text) (i : Nat) (pattern : List Char) : Result Bool :=
  if s.size < i then .error .outOfRange else .ok (reads s i pattern)

/-- Past all bytes of the class. -/
def skipBytes (P : Char → Bool) (s : Text) (i : Nat) : Nat :=
  if peek s i P then skipBytes P s (i + 1) else i
termination_by s.bytes.length - i
decreasing_by
  have hi : i < s.bytes.length := by
    by_contra hi
    simp_all [peek, byteAt?]
  omega

/-- The width of the character at `i`, or of a byte where none starts. -/
def width (s : Text) (i : Nat) : Nat :=
  ((charAt? s i).map Char.utf8Size).getD 1

/-- The offset in `s` where the pattern first starts. -/
def find? (pattern s : Text) : Option Nat :=
  let (before, rest) := Text.breakAt (Text.startsWith · pattern) s
  if rest = [] then none else some before.size

/-- What a token that starts at a known offset is, and where it ends. -/
structure Ending where
  kind : TokenKind
  stop : Nat
  fault : Option Cause := none
deriving DecidableEq, Repr

/-- The lexeme as a token that starts at `i`. -/
def Ending.of (i : Nat) (l : Lexeme) : Ending :=
  ⟨l.kind, i + l.text.size, l.fault⟩

/-- At offset `i` of `s` a character starts or `s` ends, and `r` is what is left. -/
def At (s : Text) (i : Nat) (r : Text) : Prop :=
  ∃ a, s = a ++ r ∧ i = a.size

/-- Only ASCII characters are in the class. -/
def AsciiClass (P : Char → Bool) : Prop :=
  ∀ c, P c = true → c.toNat < 128

/-- Only ASCII characters are in the text. -/
def IsAscii (t : Text) : Prop :=
  ∀ k ∈ t, k.toNat < 128

instance (t : Text) : Decidable (IsAscii t) :=
  List.decidableBAll (fun k : Char => k.toNat < 128) t

theorem IsAscii.cons {c : Char} {t : Text} (hc : c.toNat < 128) (ht : IsAscii t) :
    IsAscii (c :: t) := by
  intro k hk
  rcases List.mem_cons.1 hk with rfl | hk
  · exact hc
  · exact ht k hk

theorem IsAscii.tail {c : Char} {t : Text} (h : IsAscii (c :: t)) : IsAscii t :=
  fun k hk => h k (List.mem_cons_of_mem c hk)

theorem utf8EncodeChar_ascii {c : Char} (hc : c.toNat < 128) :
    String.utf8EncodeChar c = [UInt8.ofNat c.toNat] := by
  have h : c.val.toNat ≤ 0x7f := Nat.le_of_lt_succ hc
  simp only [String.utf8EncodeChar, if_pos h]
  rfl

theorem utf8Size_ascii {c : Char} (hc : c.toNat < 128) : c.utf8Size = 1 := by
  have h := String.length_utf8EncodeChar c
  rw [utf8EncodeChar_ascii hc] at h
  exact h.symm

theorem size_ascii {t : Text} (ht : IsAscii t) : t.size = t.length := by
  induction t with
  | nil => rfl
  | cons c t ih =>
    have hc := utf8Size_ascii (ht c List.mem_cons_self)
    rw [Text.size_cons, hc, ih ht.tail, List.length_cons,
      Nat.add_comm]

theorem le_of_mem_utf8EncodeChar {c : Char} (hc : 128 ≤ c.toNat) :
    ∀ b ∈ String.utf8EncodeChar c, 0x80 ≤ b := by
  have high : ∀ n, 128 ≤ n → n < 256 → (0x80 : UInt8) ≤ UInt8.ofNat n := by
    intro n hlo hhi
    rw [UInt8.le_iff_toNat_le, UInt8.toNat_ofNat', Nat.mod_eq_of_lt hhi]
    exact hlo
  have h : ¬ c.val.toNat ≤ 0x7f := Nat.not_le_of_lt hc
  intro b hb
  simp only [String.utf8EncodeChar, if_neg h] at hb
  split at hb
  · simp only [List.mem_cons, List.not_mem_nil, or_false] at hb
    rcases hb with rfl | rfl <;> exact high _ (by omega) (by omega)
  · split at hb <;> simp only [List.mem_cons, List.not_mem_nil, or_false] at hb
    · rcases hb with rfl | rfl | rfl <;> exact high _ (by omega) (by omega)
    · rcases hb with rfl | rfl | rfl | rfl <;> exact high _ (by omega) (by omega)

theorem byteIs_ascii {P : Char → Bool} {c : Char} (hc : c.toNat < 128) :
    byteIs P (UInt8.ofNat c.toNat) = P c := by
  have hnat : (UInt8.ofNat c.toNat).toNat = c.toNat := by
    rw [UInt8.toNat_ofNat', Nat.mod_eq_of_lt (by omega)]
  have hlt : UInt8.ofNat c.toNat < 0x80 := by
    rw [UInt8.lt_iff_toNat_lt, hnat]
    exact hc
  have hchar : Char.ofUInt8 (UInt8.ofNat c.toNat) = c := by
    apply Char.toNat_inj.1
    change (UInt8.ofNat c.toNat).toUInt32.toNat = c.toNat
    rw [UInt8.toNat_toUInt32, hnat]
  simp [byteIs, hlt, hchar]

theorem byteIs_high {P : Char → Bool} {b : UInt8} (hb : 0x80 ≤ b) : byteIs P b = false := by
  have hlt : ¬ b < 0x80 := UInt8.not_lt.2 hb
  simp [byteIs, hlt]

theorem ascii_eq {k : Char} (hk : k.toNat < 128 := by decide) : AsciiClass (· = k) := by
  intro c hc
  rw [decide_eq_true_iff] at hc
  exact hc ▸ hk

theorem asciiClass_pair {j k : Char} (hj : j.toNat < 128 := by decide)
    (hk : k.toNat < 128 := by decide) : AsciiClass fun c => c = j || c = k := by
  intro c hc
  rcases Bool.or_eq_true_iff.1 hc with h | h
  · exact ascii_eq hj c h
  · exact ascii_eq hk c h

theorem asciiClass_isAlpha : AsciiClass Char.isAlpha := by
  intro c hc
  rcases Bool.or_eq_true_iff.1 hc with hupper | hlower
  · obtain ⟨-, hle⟩ := of_decide_eq_true hupper
    have hle' : c.toNat ≤ 90 := hle
    omega
  · obtain ⟨-, hle⟩ := Bool.and_eq_true_iff.1 hlower
    have hle' : c.toNat ≤ 122 := of_decide_eq_true hle
    omega

theorem asciiClass_toLower {k : Char} (hk : k.toNat < 128) : AsciiClass fun c => c.toLower = k := by
  intro c hc
  rw [decide_eq_true_iff] at hc
  cases hupper : c.isUpper with
  | true => exact asciiClass_isAlpha c (isAlpha_of_isUpper hupper)
  | false =>
    rw [toLower_of_not_isUpper hupper] at hc
    exact hc ▸ hk

theorem isAscii_of_toLower {t : Text} (h : IsAscii t.toLower) : IsAscii t := by
  intro c hc
  have hlower : c.toLower.toNat < 128 := h _ (List.mem_map_of_mem hc)
  exact asciiClass_toLower hlower c (decide_eq_true rfl)

theorem byteAt?_append (a r : Text) (k : Nat) : byteAt? (a ++ r) (a.size + k) = byteAt? r k := by
  rw [byteAt?, Text.bytes_append, ← Text.length_bytes,
    List.getElem?_append_right (Nat.le_add_right _ _), Nat.add_sub_cancel_left]
  rfl

theorem peek_append (a r : Text) (k : Nat) (P : Char → Bool) :
    peek (a ++ r) (a.size + k) P = peek r k P := by
  rw [peek, byteAt?_append]
  rfl

theorem peek_zero {P : Char → Bool} (hP : AsciiClass P) (r : Text) :
    peek r 0 P = r.head?.any P := by
  cases r with
  | nil => rfl
  | cons c r =>
    by_cases hc : c.toNat < 128
    · rw [peek, byteAt?, Text.bytes_cons, utf8EncodeChar_ascii hc]
      exact byteIs_ascii hc
    · have hnot : P c = false := by
        rw [Bool.eq_false_iff]
        exact fun h => hc (hP c h)
      have hhigh := le_of_mem_utf8EncodeChar (Nat.le_of_not_lt hc)
      cases hbytes : String.utf8EncodeChar c with
      | nil => exact absurd hbytes String.utf8EncodeChar_ne_nil
      | cons b bs =>
        rw [peek, byteAt?, Text.bytes_cons, hbytes]
        rw [hbytes] at hhigh
        simp [byteIs_high (hhigh b List.mem_cons_self), hnot]

section At

variable {s r : Text} {i : Nat}

theorem At.start (s : Text) : At s 0 s := ⟨[], rfl, rfl⟩

theorem At.advance {t : Text} (h : At s i (t ++ r)) : At s (i + t.size) r := by
  obtain ⟨a, rfl, rfl⟩ := h
  exact ⟨a ++ t, by simp, by simp⟩

theorem At.next {c : Char} (h : At s i (c :: r)) : At s (i + c.utf8Size) r :=
  At.advance (t := [c]) h

/-- Past an ASCII character is one byte on. -/
theorem At.succ {c : Char} (h : At s i (c :: r)) (hc : c.toNat < 128 := by decide) :
    At s (i + 1) r := by
  have hnext := h.next
  rwa [utf8Size_ascii hc] at hnext

theorem At.size (h : At s i r) : s.size = i + r.size := by
  obtain ⟨a, rfl, rfl⟩ := h
  exact Text.size_append a r

theorem At.dropBytes? (h : At s i r) : s.dropBytes? i = some r := by
  obtain ⟨a, rfl, rfl⟩ := h
  exact Text.dropBytes?_append a r

theorem At.charAt? (h : At s i r) : Cursor.charAt? s i = r.head? := by
  rw [Cursor.charAt?, h.dropBytes?]
  rfl

theorem At.width {c : Char} (h : At s i (c :: r)) : Cursor.width s i = c.utf8Size := by
  rw [Cursor.width, h.charAt?]
  rfl

theorem At.textFrom (h : At s i r) : Cursor.textFrom s i = .ok r := by
  have hsize := h.size
  rw [Cursor.textFrom, if_neg (by omega), h.dropBytes?]

theorem At.textBetween {t : Text} (h : At s i (t ++ r)) :
    Cursor.textBetween s i (i + t.size) = .ok t := by
  have hsize := h.size
  rw [Text.size_append] at hsize
  rw [Cursor.textBetween, if_neg (by omega), h.dropBytes?, Nat.add_sub_cancel_left,
    Option.bind_some, Text.takeBytes?_append]

theorem At.peek_add (h : At s i r) (k : Nat) (P : Char → Bool) :
    peek s (i + k) P = peek r k P := by
  obtain ⟨a, rfl, rfl⟩ := h
  exact peek_append a r k P

theorem At.peek {P : Char → Bool} (h : At s i r) (hP : AsciiClass P) :
    Cursor.peek s i P = r.head?.any P := by
  have hpeek := h.peek_add 0 P
  rwa [Nat.add_zero, peek_zero hP] at hpeek

/-- Looking for one ASCII character. -/
theorem At.peek_eq {k : Char} (h : At s i r) (hk : k.toNat < 128 := by decide) :
    Cursor.peek s i (· = k) = decide (r.head? = some k) := by
  rw [h.peek (ascii_eq hk)]
  cases r with
  | nil => rfl
  | cons c r => simp

theorem At.byteAt?_eq_none (h : At s i r) : byteAt? s i = none ↔ r = [] := by
  have hsize := h.size
  rw [byteAt?, List.getElem?_eq_none_iff, Text.length_bytes]
  constructor
  · intro hle
    by_contra hr
    have := Text.size_pos hr
    omega
  · rintro rfl
    simp at hsize
    omega

/-- A pattern of ASCII characters is read byte by byte as it is read character by character. -/
theorem At.reads {pattern : List Char} (h : At s i r) (hp : IsAscii pattern) :
    Cursor.reads s i pattern = Text.startsWith r pattern := by
  induction pattern generalizing i r with
  | nil => simp [Cursor.reads]
  | cons k ks ih =>
    have hk := hp k List.mem_cons_self
    rw [Cursor.reads, h.peek_eq hk]
    cases r with
    | nil => simp
    | cons c r =>
      by_cases hc : c = k
      · subst hc
        rw [ih (h.succ hk) hp.tail]
        simp
      · simp [hc]

theorem At.sees {pattern : List Char} (h : At s i r) (hp : IsAscii pattern) :
    Cursor.sees s i pattern = .ok (Text.startsWith r pattern) := by
  have hsize := h.size
  rw [Cursor.sees, if_neg (by omega), h.reads hp]

theorem At.skipBytes {P : Char → Bool} (h : At s i r) (hP : AsciiClass P) :
    Cursor.skipBytes P s i = i + Text.size (r.takeWhile P) := by
  induction r generalizing i with
  | nil =>
    rw [Cursor.skipBytes, h.peek hP]
    simp
  | cons c r ih =>
    rw [Cursor.skipBytes, h.peek hP]
    cases hc : P c with
    | false => simp [hc]
    | true =>
      have hwidth := utf8Size_ascii (hP c hc)
      rw [List.takeWhile_cons_of_pos hc, Text.size_cons, hwidth,
        if_pos (by simpa using hc), ih (h.succ (hP c hc)), Nat.add_assoc]

/-- What comes after a run of the class. -/
theorem At.takeWhile (h : At s i r) (P : Char → Bool) :
    At s (i + Text.size (r.takeWhile P)) (r.dropWhile P) := by
  apply At.advance
  rwa [List.takeWhile_append_dropWhile]

end At

end Cursor
end PhpImports

import PhpImports.Text.Basic

/-!
# Byte offsets

Offsets count the bytes of a text in UTF-8. `dropBytes? n` and `takeBytes? n` cut where exactly `n`
bytes end: there is no such place inside a character or past the end.
-/

namespace PhpImports.Text

/-- How many bytes a text has in UTF-8. -/
def size (s : Text) : Nat :=
  s.foldr (fun c n => c.utf8Size + n) 0

/-- The bytes of a text in UTF-8, one by one. -/
def bytes (s : Text) : List UInt8 :=
  s.flatMap String.utf8EncodeChar

def dropBytes? : Nat → Text → Option Text
  | 0, s => some s
  | _ + 1, [] => none
  | n + 1, c :: r => if c.utf8Size ≤ n + 1 then dropBytes? (n + 1 - c.utf8Size) r else none

def takeBytes? (n : Nat) (s : Text) : Option Text :=
  go [] n s
where
  /-- `seen` holds the characters already taken, the last one first. -/
  go (seen : Text) : Nat → Text → Option Text
    | 0, _ => some seen.reverse
    | _ + 1, [] => none
    | n + 1, c :: r => if c.utf8Size ≤ n + 1 then go (c :: seen) (n + 1 - c.utf8Size) r else none

/-- The characters between two byte offsets, and none at all where the offsets do not fit. -/
def slice (s : Text) (start stop : Nat) : Text :=
  if stop < start then []
  else ((dropBytes? start s).bind (takeBytes? (stop - start))).getD []

@[simp] theorem size_nil : size [] = 0 := rfl

@[simp] theorem size_cons (c : Char) (r : Text) : size (c :: r) = c.utf8Size + size r := rfl

@[simp] theorem size_append (a b : Text) : size (a ++ b) = size a + size b := by
  induction a with
  | nil => simp
  | cons c r ih => simp [ih, Nat.add_assoc]

theorem bytes_cons (c : Char) (r : Text) :
    bytes (c :: r) = String.utf8EncodeChar c ++ bytes r := rfl

theorem bytes_append (a b : Text) : bytes (a ++ b) = a.bytes ++ b.bytes :=
  List.flatMap_append

theorem length_bytes (s : Text) : s.bytes.length = s.size := by
  induction s with
  | nil => rfl
  | cons c r ih => simp [bytes_cons, ih]

theorem size_pos {s : Text} (h : s ≠ []) : 0 < s.size := by
  cases s with
  | nil => exact absurd rfl h
  | cons c r => rw [size_cons]; exact Nat.add_pos_left (Char.utf8Size_pos c) _

theorem dropBytes?_append (a b : Text) : dropBytes? a.size (a ++ b) = some b := by
  induction a with
  | nil => cases b <;> rfl
  | cons c r ih =>
    have hc := Char.utf8Size_pos c
    obtain ⟨n, hn⟩ : ∃ n, size (c :: r) = n + 1 := ⟨c.utf8Size - 1 + size r, by simp; omega⟩
    have hs := size_cons c r
    rw [hn, List.cons_append, dropBytes?, if_pos (by omega),
      show n + 1 - c.utf8Size = size r by omega, ih]

theorem takeBytes?_go_append (seen a b : Text) :
    takeBytes?.go seen a.size (a ++ b) = some (seen.reverse ++ a) := by
  induction a generalizing seen with
  | nil => cases b <;> simp [takeBytes?.go]
  | cons c r ih =>
    have hc := Char.utf8Size_pos c
    obtain ⟨n, hn⟩ : ∃ n, size (c :: r) = n + 1 := ⟨c.utf8Size - 1 + size r, by simp; omega⟩
    have hs := size_cons c r
    rw [hn, List.cons_append, takeBytes?.go, if_pos (by omega),
      show n + 1 - c.utf8Size = size r by omega, ih]
    simp

theorem takeBytes?_append (a b : Text) : takeBytes? a.size (a ++ b) = some a :=
  takeBytes?_go_append [] a b

/-- The slice between the ends of a part of a text is that part. -/
theorem slice_append (a b c : Text) :
    slice (a ++ (b ++ c)) a.size (a.size + b.size) = b := by
  rw [slice, if_neg (by omega), dropBytes?_append, Nat.add_sub_cancel_left]
  simp [takeBytes?_append]

end PhpImports.Text

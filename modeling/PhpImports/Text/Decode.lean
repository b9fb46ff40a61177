import PhpImports.Text.Basic

/-!
# Decoding bytes

Bytes are read as UTF-8, and no byte stops the reading: each longest beginning of a character that
the next byte does not continue becomes one replacement character, and so does each byte that no
character begins with.
-/

namespace PhpImports.Text

def replacement : Char := '\uFFFD'

/-- A character that has begun: the bits read so far, the bytes still to come and the bounds of the
next one. -/
structure Unfinished where
  bits : Nat
  missing : Nat
  low : UInt8
  high : UInt8
deriving DecidableEq, Repr

/-- A byte that no character is waiting for. -/
def Unfinished.start (b : UInt8) : Text × Option Unfinished :=
  if b < 0x80 then ([Char.ofNat b.toNat], none)
  else if b < 0xC2 then ([replacement], none)
  else if b < 0xE0 then ([], some ⟨b.toNat - 0xC0, 1, 0x80, 0xBF⟩)
  else if b = 0xE0 then ([], some ⟨0, 2, 0xA0, 0xBF⟩)
  else if b = 0xED then ([], some ⟨0xD, 2, 0x80, 0x9F⟩)
  else if b < 0xF0 then ([], some ⟨b.toNat - 0xE0, 2, 0x80, 0xBF⟩)
  else if b = 0xF0 then ([], some ⟨0, 3, 0x90, 0xBF⟩)
  else if b < 0xF4 then ([], some ⟨b.toNat - 0xF0, 3, 0x80, 0xBF⟩)
  else if b = 0xF4 then ([], some ⟨4, 3, 0x80, 0x8F⟩)
  else ([replacement], none)

/-- A byte after `u`: it continues the character, or the character is given up and the byte starts
afresh. -/
def Unfinished.next (u : Unfinished) (b : UInt8) : Text × Option Unfinished :=
  if u.low ≤ b ∧ b ≤ u.high then
    let bits := u.bits * 64 + (b.toNat - 0x80)
    if u.missing ≤ 1 then ([Char.ofNat bits], none)
    else ([], some ⟨bits, u.missing - 1, 0x80, 0xBF⟩)
  else
    let (out, later) := start b
    (replacement :: out, later)

def decode (bytes : List UInt8) : Text :=
  go [] none bytes
where
  /-- `seen` holds the characters read so far, the last one first. -/
  go (seen : Text) : Option Unfinished → List UInt8 → Text
    | none, [] => seen.reverse
    | some _, [] => (replacement :: seen).reverse
    | none, b :: bs =>
      let (out, later) := Unfinished.start b
      go (out.reverse ++ seen) later bs
    | some u, b :: bs =>
      let (out, later) := u.next b
      go (out.reverse ++ seen) later bs

end PhpImports.Text

import PhpImports.Text.Bytes

/-!
# Spans

A span is a pair of byte offsets of 32 bits. Nothing keeps it in order or inside a text: a span that
does not fit a text has the empty text there.
-/

namespace PhpImports

structure Span where
  start : UInt32
  stop : UInt32
deriving DecidableEq, Repr, Inhabited

namespace Span

/-- The span from offset zero to offset zero, which stands in where no span is known. -/
def zero : Span := ⟨0, 0⟩

/-- The span between two byte counts, taken modulo the width of an offset. -/
def ofNat (start stop : Nat) : Span := ⟨start.toUInt32, stop.toUInt32⟩

/-- The bytes of a span, none if it is out of order. -/
def length (s : Span) : Nat :=
  s.stop.toNat - s.start.toNat

def isEmpty (s : Span) : Bool :=
  s.length = 0

/-- The least span that covers both. -/
def merge (a b : Span) : Span :=
  ⟨min a.start b.start, max a.stop b.stop⟩

def text (s : Span) (source : Text) : Text :=
  source.slice s.start.toNat s.stop.toNat

/-- The empty span at the end of this one. -/
def atStop (s : Span) : Span := ⟨s.stop, s.stop⟩

theorem ofNat_text {a b c : Text} (h : (a ++ (b ++ c)).size < UInt32.size) :
    (ofNat a.size (a.size + b.size)).text (a ++ (b ++ c)) = b := by
  simp only [Text.size_append, UInt32.size] at h
  simp only [text, ofNat, Nat.toUInt32, UInt32.toNat_ofNat']
  rw [Nat.mod_eq_of_lt (by omega), Nat.mod_eq_of_lt (by omega)]
  exact Text.slice_append a b c

end Span
end PhpImports

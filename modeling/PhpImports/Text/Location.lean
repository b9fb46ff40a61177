import PhpImports.Text.Basic

/-!
# Locations

A byte offset is looked up by walking over the characters that end at or before it, so an offset
inside a character counts as that character's start and one past the end as the end. Lines and
columns count from zero, and a column counts characters.
-/

namespace PhpImports

structure Location where
  line : Nat
  column : Nat
  /-- What is left of the text from the start of the line on. -/
  fromLine : Text
deriving DecidableEq, Repr

namespace Location

/-- The line of this location, without its line ending. -/
def lineText (l : Location) : Text :=
  l.fromLine.takeWhile (· ≠ '\n')

/-- The location after `c`, with `r` to follow. -/
def after (l : Location) (c : Char) (r : Text) : Location :=
  if c = '\n' then ⟨l.line + 1, 0, r⟩ else ⟨l.line, l.column + 1, l.fromLine⟩

/-- The location `bytes` further on, `s` being what is left of the text. -/
def advance (l : Location) (bytes : Nat) : Text → Location
  | [] => l
  | c :: r => if c.utf8Size ≤ bytes then (l.after c r).advance (bytes - c.utf8Size) r else l

end Location

def Text.locate (s : Text) (byte : Nat) : Location :=
  Location.advance ⟨0, 0, s⟩ byte s

/-- The lines of a text, which line feeds separate. -/
def Text.lines (s : Text) : List Text :=
  s.splitOn '\n'

def Text.joinLines (ls : List Text) : Text :=
  ['\n'].intercalate ls

/-- A count in decimal digits. -/
def Text.ofNat (n : Nat) : Text :=
  Nat.toDigits 10 n

end PhpImports

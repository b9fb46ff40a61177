import PhpImports.Lexeme.Basic

/-!
# Quoted strings

A quoted string ends at its own quote, unless a backslash or a block hides it. A block starts, in a
string that is not single-quoted, at a brace that a dollar sign follows; braces nest in it and it
may hold single- and double-quoted strings of its own, so what is open at a place is a stack.
-/

namespace PhpImports.Lexeme

inductive Enclosure where
  | quote (q : Char)
  /-- One character, whatever it is. -/
  | escape
  | block
deriving DecidableEq, Repr

namespace Enclosure

/-- What is open after the character `c`, `r` being the text after it. -/
def next (c : Char) (r : Text) : List Enclosure → List Enclosure
  | [] => []
  | .escape :: outer => outer
  | .quote q :: outer =>
    if c = '\\' then .escape :: .quote q :: outer
    else if c = '{' ∧ q ≠ '\'' ∧ r.head? = some '$' then .block :: .quote q :: outer
    else if c = q then outer
    else .quote q :: outer
  | .block :: outer =>
    if c = '{' then .block :: .block :: outer
    else if c = '}' then outer
    else if c = '\'' ∨ c = '"' then .quote c :: .block :: outer
    else .block :: outer

/-- The characters up to the place where nothing is open any more, and what comes after it. -/
def close (opened : List Enclosure) (s : Text) : Text × Option Text :=
  go [] opened s
where
  /-- `seen` holds the characters already read, the last one first. -/
  go (seen : Text) : List Enclosure → Text → Text × Option Text
    | [], s => (seen.reverse, some s)
    | _ :: _, [] => (seen.reverse, none)
    | e :: outer, c :: r => go (c :: seen) (next c r (e :: outer)) r

theorem close_go (seen : Text) (opened : List Enclosure) (s : Text) :
    close.go seen opened s = (seen.reverse ++ (close opened s).1, (close opened s).2) := by
  induction s generalizing seen opened with
  | nil => cases opened <;> simp [close, close.go]
  | cons c r ih =>
    cases opened with
    | nil => simp [close, close.go]
    | cons e outer =>
      rw [close, close.go, close.go, ih (c :: seen), ih [c]]
      simp

theorem close_nil (s : Text) : close [] s = ([], some s) := by
  cases s <;> rfl

theorem close_cons_nil (e : Enclosure) (outer : List Enclosure) :
    close (e :: outer) [] = ([], none) := rfl

theorem close_cons_cons (e : Enclosure) (outer : List Enclosure) (c : Char) (r : Text) :
    close (e :: outer) (c :: r) =
      (c :: (close (next c r (e :: outer)) r).1, (close (next c r (e :: outer)) r).2) := by
  rw [close, close.go, close_go]
  simp

theorem close_append (opened : List Enclosure) (s : Text) :
    (close opened s).1 ++ (close opened s).2.getD [] = s := by
  induction s generalizing opened with
  | nil => cases opened <;> simp [close_nil, close_cons_nil]
  | cons c r ih =>
    cases opened with
    | nil => simp [close_nil]
    | cons e outer => simp [close_cons_cons, ih]

end Enclosure

/-- The string that has `s` after its opening quote. -/
def quoted (quote : Char) (s : Text) : Lexeme × Text :=
  enclosed .stringLiteral .unterminatedString [quote] (Enclosure.close [.quote quote] s)

theorem quoted_splits (quote : Char) (s : Text) : Splits (quote :: s) (quoted quote s) :=
  @enclosed_splits _ _ [quote] s _ (Enclosure.close_append _ s) (by simp)

end PhpImports.Lexeme

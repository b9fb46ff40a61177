import PhpImports.Diagnostic
import PhpImports.Token
import PhpImports.Text.Break

/-!
# Lexemes

A lexeme is a kind and the characters it takes from the head of a text; offsets come later, from
adding up sizes. Every reader in the modules below returns a lexeme and what is left, and splits the
text it was given: characters taken and characters left make up the text, and some are taken.
-/

namespace PhpImports

structure Lexeme where
  kind : TokenKind
  text : Text
  /-- What is wrong with it. -/
  fault : Option Cause := none
deriving DecidableEq, Repr, Inhabited

namespace Lexeme

/-- The first `n` characters. -/
def cut (kind : TokenKind) (n : Nat) (s : Text) : Lexeme × Text :=
  ({ kind, text := s.take n }, s.drop n)

/-- The longest run of characters in a class. -/
def run (kind : TokenKind) (p : Char → Bool) (s : Text) : Lexeme × Text :=
  ({ kind, text := s.takeWhile p }, s.dropWhile p)

/-- Everything before the first place that `stop` accepts. -/
def upTo (kind : TokenKind) (stop : Text → Bool) (s : Text) : Lexeme × Text :=
  let (taken, rest) := Text.breakAt stop s
  ({ kind, text := taken }, rest)

/-- The lexeme whose body comes after `opener`. A body with nothing to close it runs to the end of
the text and is a fault. -/
def enclosed (kind : TokenKind) (fault : Cause) (opener : Text) :
    Text × Option Text → Lexeme × Text
  | (body, some rest) => ({ kind, text := opener ++ body }, rest)
  | (body, none) => ({ kind, text := opener ++ body, fault := some fault }, [])

/-- A lexeme and a rest make up a text, and the lexeme is not empty. -/
def Splits (s : Text) (x : Lexeme × Text) : Prop :=
  x.1.text ++ x.2 = s ∧ x.1.text ≠ []

theorem cut_splits {kind : TokenKind} {n : Nat} {s : Text} (hn : n ≠ 0) (hs : s ≠ []) :
    Splits s (cut kind n s) := by
  refine ⟨List.take_append_drop n s, ?_⟩
  simp only [cut, ne_eq, List.take_eq_nil_iff, not_or]
  exact ⟨hn, hs⟩

theorem run_splits {kind : TokenKind} {p : Char → Bool} {c : Char} {r : Text}
    (h : p c = true) : Splits (c :: r) (run kind p (c :: r)) :=
  ⟨List.takeWhile_append_dropWhile, by simp [run, h]⟩

theorem upTo_splits {kind : TokenKind} {stop : Text → Bool} {c : Char} {r : Text}
    (h : stop (c :: r) = false) : Splits (c :: r) (upTo kind stop (c :: r)) :=
  ⟨Text.breakAt_append stop (c :: r), Text.breakAt_ne_nil h⟩

theorem enclosed_splits {kind : TokenKind} {fault : Cause} {opener body : Text}
    {x : Text × Option Text} (h : x.1 ++ x.2.getD [] = body) (ho : opener ≠ []) :
    Splits (opener ++ body) (enclosed kind fault opener x) := by
  obtain ⟨taken, rest⟩ := x
  cases rest <;> simp_all [enclosed, Splits]

theorem Splits.length_lt {s : Text} {x : Lexeme × Text} (h : Splits s x) :
    x.2.length < s.length := by
  have : 0 < x.1.text.length := List.length_pos_iff.2 h.2
  rw [← h.1, List.length_append]
  omega

end Lexeme
end PhpImports

import PhpImports.Text.Basic

/-!
# Line endings

A line ends with LF, with CR LF or with a lone CR. `unifyLineEndings` writes every ending as LF, so
that offsets and line numbers agree; the three equations below say what it does to the head of a
text.
-/

namespace PhpImports.Text

def unifyLineEndings (s : Text) : Text :=
  go [] s
where
  /-- `seen` holds what is already written, the last character first. -/
  go (seen : Text) : Text → Text
    | [] => seen.reverse
    | '\r' :: '\n' :: r => go ('\n' :: seen) r
    | c :: r => go ((if c = '\r' then '\n' else c) :: seen) r

theorem unifyLineEndings_go_append (seen early s : Text) :
    unifyLineEndings.go (seen ++ early) s = early.reverse ++ unifyLineEndings.go seen s := by
  fun_induction unifyLineEndings.go seen s with
  | case1 seen => simp [unifyLineEndings.go]
  | case2 seen r ih => rw [unifyLineEndings.go]; exact ih
  | case3 seen c r h ih =>
    rw [unifyLineEndings.go]
    · exact ih
    · exact h

theorem unifyLineEndings_go (seen s : Text) :
    unifyLineEndings.go seen s = seen.reverse ++ unifyLineEndings s := by
  simpa [unifyLineEndings] using unifyLineEndings_go_append [] seen s

theorem unifyLineEndings_nil : unifyLineEndings [] = [] := rfl

theorem unifyLineEndings_crlf (r : Text) :
    unifyLineEndings ('\r' :: '\n' :: r) = '\n' :: unifyLineEndings r := by
  rw [unifyLineEndings, unifyLineEndings.go, unifyLineEndings_go]
  rfl

theorem unifyLineEndings_cons (c : Char) (r : Text) (h : c = '\r' → r.head? ≠ some '\n') :
    unifyLineEndings (c :: r) = (if c = '\r' then '\n' else c) :: unifyLineEndings r := by
  rw [unifyLineEndings, unifyLineEndings.go, unifyLineEndings_go]
  · rfl
  · rintro t rfl rfl
    simp at h

end PhpImports.Text

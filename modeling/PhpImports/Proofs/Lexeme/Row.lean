import PhpImports.Lexing
import PhpImports.Proofs.Lexeme.Grammar
import PhpImports.Proofs.Lexeme.OpenTag

/-!
# Rows of lexemes

Lexemes are in a row if each of them stands in front of the text of those behind it, in the mode
that those before it leave. The lexemes of a text are the one row that makes it up
(`readAll_eq_iff`), so to know how a text is read it is enough to exhibit the row.
-/

namespace PhpImports

/-- In this mode, the lexeme stands in front of the text. -/
def Mode.Stands (m : Mode) (shortTags : Bool) (l : Lexeme) (x : Text) : Prop :=
  match m with
  | .html => Lexeme.StandsOutside shortTags l x
  | .code afterAccess => Lexeme.Stands afterAccess l x

theorem Mode.lexeme_iff {m : Mode} {shortTags : Bool} {c : Char} {r : Text} {l : Lexeme}
    {x : Text} : m.lexeme shortTags c r = (l, x) ↔
      l.text ++ x = c :: r ∧ m.Stands shortTags l x := by
  cases m with
  | html => exact Lexeme.ofHtml_iff
  | code afterAccess => exact Lexeme.ofCode_iff

theorem Mode.Stands.ne_nil {m : Mode} {shortTags : Bool} {l : Lexeme} {x : Text}
    (h : m.Stands shortTags l x) : l.text ≠ [] := by
  cases m with
  | html => exact (Lexeme.StandsOutside.ofHtml h).1
  | code afterAccess =>
    obtain ⟨c, r, hsplit, hread⟩ := Lexeme.Stands.ofCode h
    have hne := (Lexeme.ofCode_splits afterAccess c r).2
    rwa [hread] at hne

namespace Lexeme

/-- The text that lexemes make up. -/
def texts (ls : List Lexeme) : Text :=
  (ls.map (·.text)).flatten

@[simp] theorem texts_nil : texts [] = [] := rfl

@[simp] theorem texts_cons (l : Lexeme) (ls : List Lexeme) : texts (l :: ls) = l.text ++ texts ls :=
  rfl

@[simp] theorem texts_append (ls ls' : List Lexeme) :
    texts (ls ++ ls') = texts ls ++ texts ls' := by
  simp [texts]

/-- Read from this mode on, each lexeme stands in front of those behind it. -/
inductive InRow (shortTags : Bool) : Mode → List Lexeme → Prop
  | nil {m : Mode} : InRow shortTags m []
  | cons {m : Mode} {l : Lexeme} {ls : List Lexeme} (first : m.Stands shortTags l (texts ls))
      (rest : InRow shortTags (m.after l.kind) ls) : InRow shortTags m (l :: ls)

/-- The end of a row is a row, in the mode that the lexemes before it leave. -/
theorem InRow.behind {shortTags : Bool} {m : Mode} {A B : List Lexeme}
    (h : InRow shortTags m (A ++ B)) :
    InRow shortTags (A.foldl (fun m l => m.after l.kind) m) B := by
  induction A generalizing m with
  | nil => exact h
  | cons l A ih =>
    cases h with
    | cons _ hrest => exact ih hrest

theorem InRow.of_append {shortTags : Bool} {m : Mode} {A B : List Lexeme}
    (h : InRow shortTags m (A ++ B)) : ∃ m', InRow shortTags m' B :=
  ⟨_, h.behind⟩

theorem inRow_readAll (shortTags : Bool) (m : Mode) (s : Text) :
    InRow shortTags m (readAll shortTags m s) := by
  fun_induction readAll shortTags m s with
  | case1 => exact .nil
  | case2 m c r x ih =>
    refine .cons ?_ ih
    rw [texts, flatten_readAll]
    exact (Mode.lexeme_iff.1 rfl).2

theorem InRow.readAll {shortTags : Bool} {m : Mode} {ls : List Lexeme}
    (h : InRow shortTags m ls) : readAll shortTags m (texts ls) = ls := by
  induction h with
  | nil => rw [texts_nil, Lexeme.readAll]
  | @cons m l ls hfirst hrest ih =>
    cases htext : texts (l :: ls) with
    | nil =>
      rw [texts_cons, List.append_eq_nil_iff] at htext
      exact absurd htext.1 hfirst.ne_nil
    | cons c r =>
      have hread : m.lexeme shortTags c r = (l, texts ls) := Mode.lexeme_iff.2 ⟨htext, hfirst⟩
      rw [Lexeme.readAll]
      simp only [hread, ih]

/-- The lexemes of a text are the row that makes it up. -/
theorem readAll_eq_iff {shortTags : Bool} {m : Mode} {s : Text} {ls : List Lexeme} :
    readAll shortTags m s = ls ↔ texts ls = s ∧ InRow shortTags m ls := by
  constructor
  · rintro rfl
    exact ⟨flatten_readAll shortTags m s, inRow_readAll shortTags m s⟩
  · rintro ⟨rfl, hrow⟩
    exact hrow.readAll

theorem inRow_lexemes (shortTags : Bool) (t : Text) :
    InRow shortTags .html (t.lexemes shortTags) :=
  inRow_readAll shortTags .html t

theorem texts_lexemes (shortTags : Bool) (t : Text) : texts (t.lexemes shortTags) = t :=
  t.flatten_lexemes shortTags

end Lexeme
end PhpImports

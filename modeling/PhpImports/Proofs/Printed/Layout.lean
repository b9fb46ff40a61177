import PhpImports.Lexing
import PhpImports.Proofs.Lexeme.Comment
import PhpImports.Proofs.Text.LineEnding

/-!
# Printed layout

Between the words of a printed file stands layout: blanks, closed block comments, and line comments
with their line ending. What a text says in code is the list of its lexemes that count, which are
those that are no trivia and those that are at fault. Layout in front of a text does not change what
it says (`Layout.wording`), whatever is in the comments.
-/

namespace PhpImports

/-- The lexeme is no trivia, or something is wrong with it. -/
def Lexeme.counts (l : Lexeme) : Bool :=
  !l.kind.isTrivia || l.fault.isSome

/-- The lexemes that count, reading in code and behind no member access. -/
def outline (shortTags : Bool) (s : Text) : List Lexeme :=
  (Lexeme.readAll shortTags (.code false) s).filter (·.counts)

/-- The outline of a text whose line endings are unified. -/
def Text.wording (shortTags : Bool) (s : Text) : List Lexeme :=
  outline shortTags s.unifyLineEndings

theorem outline_nil (shortTags : Bool) : outline shortTags [] = [] := by
  rw [outline, Lexeme.readAll]
  rfl

/-- Trivia at the start of a text. -/
theorem outline_of_trivia {shortTags : Bool} {c : Char} {r t : Text} {l : Lexeme}
    (h : Lexeme.ofCode false c r = (l, t)) (hkind : l.kind.isTrivia = true)
    (hfault : l.fault = none) :
    outline shortTags (c :: r) = outline shortTags t := by
  have hmode : (Mode.code false).after l.kind = .code false := by
    cases hk : l.kind with
    | whitespace | comment | docComment => rfl
    | _ => rw [hk] at hkind; cases hkind
  have hcounts : l.counts = false := by rw [Lexeme.counts, hkind, hfault]; rfl
  rw [outline, Lexeme.readAll]
  simp only [Mode.lexeme, h, hmode, List.filter_cons, hcounts, Bool.false_eq_true, if_false]
  rfl

/-- Kinds that leave reading in code and behind no member access. -/
def TokenKind.staysInCode (k : TokenKind) : Bool :=
  !k.isTrivia && !k.isMemberAccess && k ≠ .closeTag && k ≠ .inlineHtml

/-- A lexeme that counts at the start of a text. -/
theorem outline_of_word {shortTags : Bool} {c : Char} {r t : Text} {l : Lexeme}
    (h : Lexeme.ofCode false c r = (l, t)) (hkind : l.kind.staysInCode = true) :
    outline shortTags (c :: r) = l :: outline shortTags t := by
  simp only [TokenKind.staysInCode, Bool.and_eq_true, Bool.not_eq_true',
    decide_eq_true_iff] at hkind
  obtain ⟨⟨⟨htrivia, haccess⟩, hclose⟩, hhtml⟩ := hkind
  have hmode : (Mode.code false).after l.kind = .code false := by
    simp [Mode.after, htrivia, haccess, hclose, hhtml]
  have hcounts : l.counts = true := by rw [Lexeme.counts, htrivia]; rfl
  rw [outline, Lexeme.readAll]
  simp only [Mode.lexeme, h, hmode, List.filter_cons, hcounts, if_true]
  rfl

theorem outline_dropWhile_isBlank (shortTags : Bool) (r : Text) :
    outline shortTags (r.dropWhile isBlank) = outline shortTags r := by
  cases r with
  | nil => rfl
  | cons c r =>
    cases hc : isBlank c with
    | false => rw [List.dropWhile_cons_of_neg (by simp [hc])]
    | true =>
      have hlead : Lead.of c = .blank := by rw [Lead.of, if_pos hc]
      have hcode : Lexeme.ofCode false c r = Lexeme.run .whitespace isBlank (c :: r) := by
        rw [Lexeme.ofCode, hlead]
      exact (outline_of_trivia hcode rfl rfl).symm

theorem outline_blank (shortTags : Bool) {c : Char} (hc : isBlank c = true) (r : Text) :
    outline shortTags (c :: r) = outline shortTags r := by
  rw [← outline_dropWhile_isBlank, List.dropWhile_cons_of_pos hc, outline_dropWhile_isBlank]

namespace Printed

/-- What a line comment starts with. -/
inductive LineMark where
  | slashes
  | hash
deriving DecidableEq, Repr

def LineMark.text : LineMark → Text
  | .slashes => ['/', '/']
  | .hash => ['#']

/-- A piece of layout. A hash mark with a bracket after it would start something else, and a line
comment would end early at a line ending or a close tag in it. -/
inductive Trivium where
  | blank (c : Char) (isLayout : c = ' ' ∨ c = '\t' ∨ c = '\n')
  | block (body : Text) (isClosed : ¬ ['*', '/'] <:+: body)
  | line (mark : LineMark) (body : Text) (isComment : mark = .hash → body.head? ≠ some '[')
      (inLine : '\n' ∉ body ∧ '\r' ∉ body) (inCode : ¬ ['?', '>'] <:+: body)

def Trivium.text : Trivium → Text
  | .blank c _ => [c]
  | .block body _ => ['/', '*'] ++ body ++ ['*', '/']
  | .line mark body _ _ _ => mark.text ++ body ++ ['\n']

abbrev Layout := List Trivium

def Layout.text (l : Layout) : Text :=
  l.flatMap Trivium.text

/-- Layout with something in it, which keeps two words apart. -/
structure Gap where
  first : Trivium
  rest : Layout

def Gap.text (g : Gap) : Text :=
  g.first.text ++ Layout.text g.rest

variable (shortTags : Bool)

theorem outline_block {body : Text} (h : ¬ ['*', '/'] <:+: body) (r : Text) :
    outline shortTags (['/', '*'] ++ body ++ ['*', '/'] ++ r) = outline shortTags r := by
  have hbody := Lexeme.blockBody_eq h r
  have hcode : Lexeme.ofCode false '/' ('*' :: (body ++ ['*', '/'] ++ r)) =
      Lexeme.blockComment (body ++ ['*', '/'] ++ r) := rfl
  rw [Lexeme.blockComment, hbody] at hcode
  have hkind : (if Lexeme.isDocBody (body ++ ['*', '/'] ++ r) then TokenKind.docComment
      else .comment).isTrivia = true := by
    split <;> rfl
  have htrivia := @outline_of_trivia shortTags _ _ _ _ hcode hkind rfl
  simpa using htrivia

theorem outline_line (mark : LineMark) {body : Text} (hmark : mark = .hash → body.head? ≠ some '[')
    (hline : '\n' ∉ body ∧ '\r' ∉ body) (hclose : ¬ ['?', '>'] <:+: body) (r : Text) :
    outline shortTags (mark.text ++ body ++ '\n' :: r) = outline shortTags r := by
  rw [← outline_blank shortTags (show isBlank '\n' = true from rfl) r]
  cases mark with
  | slashes =>
    have hcomment := @Lexeme.lineComment_eq ('/' :: '/' :: body) r (by simpa using hline.1)
      (by simpa using hline.2) (by simpa [Text.pair_infix_cons] using hclose)
    have hcode : Lexeme.ofCode false '/' ('/' :: (body ++ '\n' :: r)) = _ := hcomment
    exact outline_of_trivia hcode rfl rfl
  | hash =>
    have hcomment := @Lexeme.lineComment_eq ('#' :: body) r (by simpa using hline.1)
      (by simpa using hline.2) (by simpa [Text.pair_infix_cons] using hclose)
    have hcode : Lexeme.ofCode false '#' (body ++ '\n' :: r) =
        Lexeme.lineComment ('#' :: body ++ '\n' :: r) := by
      have hbracket : (body ++ '\n' :: r).head? ≠ some '[' := by
        cases body with
        | nil => simp
        | cons c body => exact hmark rfl
      rw [Lexeme.ofCode, show Lead.of '#' = .hash from rfl]
      simp only [if_neg hbracket]
      rfl
    exact outline_of_trivia (hcode.trans hcomment) rfl rfl

/-- A piece of layout in front of a text says nothing. -/
theorem Trivium.wording (t : Trivium) (r : Text) :
    Text.wording shortTags (t.text ++ r) = Text.wording shortTags r := by
  rw [Text.wording, Text.wording]
  cases t with
  | blank c hc =>
    have hcr : '\r' ∉ [c] := by rcases hc with rfl | rfl | rfl <;> decide
    have hblank : isBlank c = true := by rcases hc with rfl | rfl | rfl <;> rfl
    rw [Trivium.text, Text.unifyLineEndings_append_of_notMem hcr]
    exact outline_blank shortTags hblank r.unifyLineEndings
  | block body hbody =>
    have hunified : ¬ ['*', '/'] <:+: body.unifyLineEndings := fun h =>
      hbody (Text.infix_of_infix_unifyLineEndings (by decide) (by decide) h)
    have hopener : '\r' ∉ ['/', '*'] := by decide
    have hcloser : '\r' ∉ ['*', '/'] := by decide
    rw [Trivium.text, List.append_assoc, List.append_assoc,
      Text.unifyLineEndings_append_of_notMem hopener, Text.unifyLineEndings_append body _ (by simp),
      Text.unifyLineEndings_append_of_notMem hcloser, ← List.append_assoc, ← List.append_assoc]
    exact outline_block shortTags hunified r.unifyLineEndings
  | line mark body hmark hline hclose =>
    have hcr : '\r' ∉ mark.text ++ body ++ ['\n'] := by
      have hopener : '\r' ∉ mark.text := by cases mark <;> decide
      simp [hopener, hline.2]
    rw [Trivium.text, Text.unifyLineEndings_append_of_notMem hcr, List.append_assoc]
    exact outline_line shortTags mark hmark hline hclose r.unifyLineEndings

theorem Layout.wording (l : Layout) (r : Text) :
    Text.wording shortTags (l.text ++ r) = Text.wording shortTags r := by
  induction l with
  | nil => rfl
  | cons t l ih => rw [Layout.text, List.flatMap_cons, List.append_assoc, t.wording]; exact ih

theorem Gap.wording (g : Gap) (r : Text) :
    Text.wording shortTags (g.text ++ r) = Text.wording shortTags r := by
  rw [Gap.text, List.append_assoc, g.first.wording, Layout.wording]

/-- No name goes on with layout. -/
theorem Trivium.continuesName (t : Trivium) (r : Text) :
    (t.text ++ r).continuesName = false ∧ (t.text ++ r).startsLabel = false := by
  cases t with
  | blank c hc => rcases hc with rfl | rfl | rfl <;> exact ⟨rfl, rfl⟩
  | block body _ => exact ⟨rfl, rfl⟩
  | line mark body _ _ _ => cases mark <;> exact ⟨rfl, rfl⟩

theorem Layout.continuesName (l : Layout) {r : Text} (h : r.continuesName = false) :
    (l.text ++ r).continuesName = false := by
  cases l with
  | nil => exact h
  | cons t l =>
    rw [Layout.text, List.flatMap_cons, List.append_assoc]
    exact (t.continuesName _).1

theorem Layout.startsLabel (l : Layout) {r : Text} (h : r.startsLabel = false) :
    (l.text ++ r).startsLabel = false := by
  cases l with
  | nil => exact h
  | cons t l =>
    rw [Layout.text, List.flatMap_cons, List.append_assoc]
    exact (t.continuesName _).2

theorem Gap.continuesName (g : Gap) (r : Text) : (g.text ++ r).continuesName = false := by
  rw [Gap.text, List.append_assoc]
  exact (g.first.continuesName _).1

end Printed
end PhpImports

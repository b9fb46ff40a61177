import PhpImports.Lexeme.Code

/-!
# Lexing

A text is read lexeme after lexeme, outside code or inside it. No lexeme is empty and none is lost:
the lexemes of a text, put together, are the text (`flatten_lexemes`). Their sizes add up to spans,
their faults become diagnostics, and as long as offsets do not wrap around, the characters of a
lexeme are those that its span covers (`inText_tokens`). What a token stands for later on is what its
span covers.
-/

namespace PhpImports

/-- Where reading stands: outside code, or in code, where the last lexeme that is no trivia may be a
member access. -/
inductive Mode where
  | html
  | code (afterAccess : Bool)
deriving DecidableEq, Repr, Inhabited

namespace Mode

/-- The mode after a lexeme of this kind. -/
def after (m : Mode) (kind : TokenKind) : Mode :=
  if kind = .inlineHtml ∨ kind = .closeTag then .html
  else if kind.isTrivia then m
  else .code kind.isMemberAccess

/-- The lexeme that starts with `c`, `r` being the text after that character. -/
def lexeme (m : Mode) (shortTags : Bool) (c : Char) (r : Text) : Lexeme × Text :=
  match m with
  | .html => Lexeme.ofHtml shortTags (c :: r)
  | .code afterAccess => Lexeme.ofCode afterAccess c r

theorem lexeme_splits (m : Mode) (shortTags : Bool) (c : Char) (r : Text) :
    Lexeme.Splits (c :: r) (m.lexeme shortTags c r) := by
  cases m with
  | html => exact Lexeme.ofHtml_splits shortTags c r
  | code afterAccess => exact Lexeme.ofCode_splits afterAccess c r

end Mode

namespace Lexeme

def readAll (shortTags : Bool) (m : Mode) : Text → List Lexeme
  | [] => []
  | c :: r =>
    let x := m.lexeme shortTags c r
    x.1 :: readAll shortTags (m.after x.1.kind) x.2
termination_by s => s.length
decreasing_by exact (m.lexeme_splits shortTags c r).length_lt

/-- A lexeme at its place. -/
structure Placed where
  lexeme : Lexeme
  span : Span
deriving DecidableEq, Repr, Inhabited

/-- The lexemes at their places, the first one starting at byte `start`. -/
def place (start : Nat) : List Lexeme → List Placed
  | [] => []
  | l :: ls =>
    let stop := start + Text.size l.text
    ⟨l, .ofNat start stop⟩ :: place stop ls

namespace Placed

def piece (p : Placed) : Piece := ⟨p.lexeme.kind, p.span, p.lexeme.text⟩

def diagnostic? (p : Placed) : Option Diagnostic :=
  p.lexeme.fault.map (·.report p.span)

end Placed
end Lexeme

structure Lexing where
  pieces : List Piece
  diagnostics : List Diagnostic
deriving DecidableEq, Repr, Inhabited

namespace Lexing

def tokens (l : Lexing) : List Token :=
  l.pieces.map (·.token)

/-- The tokens, each with what its span covers in the text they are from. As long as offsets do not
wrap around that is what was lexed (`Text.readIn_lex`), and nothing is read again. -/
def readIn (l : Lexing) (s : Text) : List Piece :=
  if s.size < UInt32.size then l.pieces else l.tokens.map (·.inText s)

end Lexing

namespace Text

/-- The lexemes of a text, which starts outside code. -/
def lexemes (shortTags : Bool) (s : Text) : List Lexeme :=
  Lexeme.readAll shortTags .html s

def lex (shortTags : Bool) (s : Text) : Lexing :=
  let placed := Lexeme.place 0 (s.lexemes shortTags)
  ⟨placed.map (·.piece), placed.filterMap (·.diagnostic?)⟩

end Text

theorem Lexeme.flatten_readAll (shortTags : Bool) (m : Mode) (s : Text) :
    ((readAll shortTags m s).map (·.text)).flatten = s := by
  fun_induction readAll shortTags m s with
  | case1 => rfl
  | case2 m c r x ih =>
    rw [List.map_cons, List.flatten_cons, ih]
    exact (m.lexeme_splits shortTags c r).1

theorem Text.flatten_lexemes (shortTags : Bool) (s : Text) :
    ((s.lexemes shortTags).map (·.text)).flatten = s :=
  Lexeme.flatten_readAll shortTags .html s

theorem Lexeme.inText_place (before : Text) (ls : List Lexeme)
    (h : (before ++ (ls.map (·.text)).flatten).size < UInt32.size) :
    (place before.size ls).map (fun p => p.piece.token.inText
      (before ++ (ls.map (·.text)).flatten)) = (place before.size ls).map (·.piece) := by
  induction ls generalizing before with
  | nil => rfl
  | cons l ls ih =>
    simp only [List.map_cons, List.flatten_cons] at h ⊢
    have hspan := Span.ofNat_text h
    rw [← List.append_assoc] at h
    have ih' := ih (before ++ l.text) h
    rw [Text.size_append, List.append_assoc] at ih'
    simp only [place, List.map_cons]
    rw [ih']
    simp only [Placed.piece, Piece.token, Token.inText, hspan]

/-- Reading the tokens of a text in it gives back what was lexed. -/
theorem Text.inText_tokens {shortTags : Bool} {s : Text} (h : s.size < UInt32.size) :
    (s.lex shortTags).tokens.map (·.inText s) = (s.lex shortTags).pieces := by
  have hs := s.flatten_lexemes shortTags
  have hp := Lexeme.inText_place [] (s.lexemes shortTags)
  rw [List.nil_append, hs] at hp
  simpa [Lexing.tokens, Text.lex, Function.comp_def] using hp h

/-- Whatever the size of a text, its tokens are read by their spans. -/
theorem Text.readIn_lex (shortTags : Bool) (s : Text) :
    (s.lex shortTags).readIn s = (s.lex shortTags).tokens.map (·.inText s) := by
  rw [Lexing.readIn]
  split
  · next h => exact (inText_tokens h).symm
  · rfl

theorem Text.readIn_lex_of_lt {shortTags : Bool} {s : Text} (h : s.size < UInt32.size) :
    (s.lex shortTags).readIn s = (s.lex shortTags).pieces :=
  if_pos h

end PhpImports

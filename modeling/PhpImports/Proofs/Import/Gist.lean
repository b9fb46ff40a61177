import PhpImports.Lexing
import PhpImports.Proofs.Import.Erase

/-!
# What imports are read from

Of the characters of a piece only those of name parts matter, of its place only where diagnostics
point, and trivia do not matter at all. So the imports of a text are, up to places, those of the
gists of its lexemes (`erase_ofTokens_lex`), and two texts with the same gists import the same.
-/

namespace PhpImports

/-- What reading imports takes from a piece, but for its place. -/
def Piece.gist (p : Piece) : Piece :=
  ⟨p.kind, .zero, if p.kind.isNamePart then p.text else []⟩

/-- What reading imports takes from a lexeme. -/
def Lexeme.gist (l : Lexeme) : Piece :=
  ⟨l.kind, .zero, if l.kind.isNamePart then l.text else []⟩

/-- The gists of the lexemes that are no trivia. -/
def Lexeme.gists (ls : List Lexeme) : List Piece :=
  (ls.filter fun l => !l.kind.isTrivia).map (·.gist)

theorem Draft.next_gist (d : Draft) (p : Piece) : d.next p.gist = d.next p.erase := by
  by_cases hpart : p.kind.isNamePart = true
  · have hgist : p.gist = p.erase := by rw [Piece.gist, if_pos hpart, Piece.erase]
    rw [hgist]
  · have hkind : p.gist.kind = p.kind ∧ p.erase.kind = p.kind := ⟨rfl, rfl⟩
    rw [next, next, hkind.1, hkind.2, if_neg hpart, if_neg hpart]
    rfl

theorem Draft.readAll_gist (d : Draft) (ps : List Piece) :
    d.readAll (ps.map (·.gist)) = d.readAll (ps.map (·.erase)) := by
  induction ps generalizing d with
  | nil => rfl
  | cons p ps ih =>
    have hkind : p.gist.kind = p.erase.kind := rfl
    rw [List.map_cons, List.map_cons, readAll, readAll, next_gist, hkind, ih]

theorem Statement.read_gist (ps : List Piece) :
    read (ps.map (·.gist)) = read (ps.map (·.erase)) := by
  rw [read, read, Draft.readAll_gist, List.getLast?_map, List.getLast?_map]
  cases ps.getLast? <;> rfl

theorem Statement.readAll_gist (ps : List Piece) :
    readAll (ps.map (·.gist)) = readAll (ps.map (·.erase)) := by
  induction ps with
  | nil => rfl
  | cons p ps ih =>
    have hkind : p.gist.kind = p.erase.kind := rfl
    rw [List.map_cons, List.map_cons, readAll, readAll, read_gist, hkind, ih]

namespace Lexeme

theorem gists_append (ls ls' : List Lexeme) : gists (ls ++ ls') = gists ls ++ gists ls' := by
  rw [gists, List.filter_append, List.map_append]
  rfl

/-- Lexemes with other texts where these do not matter. -/
theorem gists_map {f : Lexeme → Lexeme} {ls : List Lexeme} (hkind : ∀ l, (f l).kind = l.kind)
    (htext : ∀ l ∈ ls, l.kind.isNamePart = true → (f l).text = l.text) :
    gists (ls.map f) = gists ls := by
  have hgist : ∀ l ∈ ls, (f l).gist = l.gist := by
    intro l hl
    rw [gist, gist, hkind]
    split
    · next hpart => rw [htext l hl hpart]
    · rfl
  have hfilter : (ls.map f).filter (fun l => !l.kind.isTrivia) =
      (ls.filter fun l => !l.kind.isTrivia).map f := by
    rw [List.filter_map]
    congr 1
    apply List.filter_congr
    intro l _
    rw [Function.comp_apply, hkind]
  rw [gists, hfilter, gists, List.map_map]
  apply List.map_congr_left
  intro l hl
  exact hgist l (List.mem_of_mem_filter hl)

theorem filter_place (start : Nat) (ls : List Lexeme) :
    (((place start ls).map (·.piece)).filter fun p => !p.kind.isTrivia).map (·.gist) =
      gists ls := by
  induction ls generalizing start with
  | nil => rfl
  | cons l ls ih =>
    have hkind : (Placed.piece ⟨l, .ofNat start (start + Text.size l.text)⟩).kind = l.kind := rfl
    rw [place, List.map_cons, gists]
    cases htrivia : l.kind.isTrivia with
    | true =>
      rw [List.filter_cons_of_neg (by simp [hkind, htrivia]),
        List.filter_cons_of_neg (by simp [htrivia]), ih, gists]
    | false =>
      rw [List.filter_cons_of_pos (by simp [hkind, htrivia]),
        List.filter_cons_of_pos (by simp [htrivia]), List.map_cons, ih, gists]
      rfl

theorem skipOpening_place (start : Nat) (ls : List Lexeme) :
    ∃ start', skipOpening (place start ls) = place start' (ls.drop 1) := by
  cases ls with
  | nil => exact ⟨start, rfl⟩
  | cons l ls => exact ⟨_, rfl⟩

end Lexeme

variable {shortTags : Bool} {t : Text}

/-- What a text imports, up to places, is read from the gists of its lexemes. -/
theorem erase_ofPieces_lex :
    (FileImports.ofPieces (skipOpening (t.lex shortTags).pieces)).erase =
      FileImports.ofPieces (Lexeme.gists ((t.lexemes shortTags).drop 1)) := by
  obtain ⟨start, hplace⟩ := Lexeme.skipOpening_place 0 (t.lexemes shortTags)
  have hpieces : skipOpening (t.lex shortTags).pieces =
      (Lexeme.place start ((t.lexemes shortTags).drop 1)).map (·.piece) := by
    rw [← hplace, skipOpening, skipOpening, List.map_drop, Text.lex]
  rw [hpieces, FileImports.erase_ofPieces, FileImports.ofPieces, erasePieces,
    ← Statement.readAll_gist, Lexeme.filter_place]
  rfl

/-- Pieces are what tokens are in their text. -/
theorem ofTokens_lex (h : t.size < UInt32.size) :
    FileImports.ofTokens t (skipOpening (t.lex shortTags).tokens) =
      FileImports.ofPieces (skipOpening (t.lex shortTags).pieces) := by
  have hread : (t.lex shortTags).tokens.map (·.inText t) = (t.lex shortTags).pieces :=
    Text.inText_tokens h
  rw [FileImports.ofTokens, skipOpening, List.map_drop, hread, skipOpening]

theorem erase_ofTokens_lex (h : t.size < UInt32.size) :
    (FileImports.ofTokens t (skipOpening (t.lex shortTags).tokens)).erase =
      FileImports.ofPieces (Lexeme.gists ((t.lexemes shortTags).drop 1)) := by
  rw [ofTokens_lex h, erase_ofPieces_lex]

end PhpImports

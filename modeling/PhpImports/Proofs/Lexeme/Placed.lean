import PhpImports.Proofs.Lexeme.Row

/-!
# Lexemes at their places

A token covers its lexeme and starts behind the text of those before it (`token_eq`). But for
places, what is read off tokens and diagnostics is read off the lexemes of the text: kinds and
characters (`labels_lex`), and faults (`map_diagnostics_lex`).
-/

namespace PhpImports

namespace Lexeme

/-- A lexeme and what is before it determine its place. -/
theorem exists_of_getElem?_place {start i : Nat} {ls : List Lexeme} {p : Placed}
    (h : (place start ls)[i]? = some p) : ∃ A B, ls = A ++ p.lexeme :: B ∧ A.length = i ∧
      p.span = .ofNat (start + (texts A).size)
        (start + (texts A).size + Text.size p.lexeme.text) := by
  induction ls generalizing start i with
  | nil => cases h
  | cons l ls ih =>
    cases i with
    | zero =>
      cases h
      exact ⟨[], ls, rfl, rfl, rfl⟩
    | succ i =>
      rw [place, List.getElem?_cons_succ] at h
      obtain ⟨A, B, rfl, rfl, hspan⟩ := ih h
      refine ⟨l :: A, B, rfl, rfl, ?_⟩
      rw [hspan, texts_cons, Text.size_append, Nat.add_assoc start]

end Lexeme

/-- The kinds of tokens and the characters that they cover in a source text. -/
def Lexing.labels (l : Lexing) (source : Text) : List (TokenKind × Text) :=
  l.tokens.map fun t => (t.kind, t.span.text source)

variable {shortTags : Bool} {t : Text}

theorem labels_lex (h : t.size < UInt32.size) :
    (t.lex shortTags).labels t = (t.lexemes shortTags).map fun l => (l.kind, l.text) := by
  have hlabels : ∀ (start : Nat) (ls : List Lexeme),
      ((Lexeme.place start ls).map (·.piece)).map (fun p => (p.kind, p.text)) =
        ls.map fun l => (l.kind, l.text) := by
    intro start ls
    induction ls generalizing start with
    | nil => rfl
    | cons l ls ih =>
      rw [Lexeme.place, List.map_cons, List.map_cons, List.map_cons, ih]
      rfl
  have hread : (t.lex shortTags).tokens.map (·.inText t) = (t.lex shortTags).pieces :=
    Text.inText_tokens h
  have hpairs : (t.lex shortTags).labels t =
      ((t.lex shortTags).tokens.map (·.inText t)).map fun p => (p.kind, p.text) := by
    rw [Lexing.labels, List.map_map]
    rfl
  rw [hpairs, hread]
  exact hlabels 0 _

theorem kinds_lex (shortTags : Bool) (t : Text) :
    (t.lex shortTags).tokens.map (·.kind) = (t.lexemes shortTags).map (·.kind) := by
  have hplace : ∀ (start : Nat) (ls : List Lexeme),
      (Lexeme.place start ls).map (fun p => p.piece.token.kind) = ls.map (·.kind) := by
    intro start ls
    induction ls generalizing start with
    | nil => rfl
    | cons l ls ih =>
      rw [Lexeme.place, List.map_cons, List.map_cons, ih]
      rfl
  rw [Lexing.tokens, Text.lex, List.map_map, List.map_map]
  exact hplace 0 _

/-- What does not depend on the place of a diagnostic is settled by the fault. -/
theorem map_diagnostics_lex {β : Type} {f : Diagnostic → β} {g : Cause → β}
    (hfg : ∀ cause span, f (cause.report span) = g cause) :
    (t.lex shortTags).diagnostics.map f =
      ((t.lexemes shortTags).filterMap (·.fault)).map g := by
  have hplace : ∀ (start : Nat) (ls : List Lexeme),
      ((Lexeme.place start ls).filterMap (·.diagnostic?)).map f =
        (ls.filterMap (·.fault)).map g := by
    intro start ls
    induction ls generalizing start with
    | nil => rfl
    | cons l ls ih =>
      rw [Lexeme.place, List.filterMap_cons, List.filterMap_cons, Lexeme.Placed.diagnostic?]
      cases l.fault with
      | none => exact ih _
      | some cause =>
        simp only [Option.map_some, List.map_cons, ih, hfg]
  exact hplace 0 _

/-- A token covers its lexeme, behind the text of the lexemes before it. -/
theorem token_eq {i : Nat} {k : Token} (h : (t.lex shortTags).tokens[i]? = some k) :
    ∃ A l B, t.lexemes shortTags = A ++ l :: B ∧ A.length = i ∧
      k = ⟨l.kind, .ofNat (Lexeme.texts A).size ((Lexeme.texts A).size + Text.size l.text)⟩ ∧
      ∀ cause ∈ l.fault, cause.report k.span ∈ (t.lex shortTags).diagnostics := by
  rw [Lexing.tokens, List.getElem?_map, Text.lex, List.getElem?_map] at h
  cases hp : (Lexeme.place 0 (t.lexemes shortTags))[i]? with
  | none =>
    rw [hp] at h
    cases h
  | some p =>
    rw [hp] at h
    obtain rfl : p.piece.token = k := Option.some.inj h
    obtain ⟨A, B, hsplit, hlength, hspan⟩ := Lexeme.exists_of_getElem?_place hp
    rw [Nat.zero_add] at hspan
    refine ⟨A, p.lexeme, B, hsplit, hlength, ?_, ?_⟩
    · rw [← hspan]
      rfl
    · intro cause hcause
      have hmem : p ∈ Lexeme.place 0 (t.lexemes shortTags) := List.mem_of_getElem? hp
      refine List.mem_filterMap.2 ⟨p, hmem, ?_⟩
      rw [Lexeme.Placed.diagnostic?, hcause]
      rfl

end PhpImports

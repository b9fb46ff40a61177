import PhpImports.Lexing

/-!
# Kinds of lexemes

A lexeme in code is spelled as a name or has a kind that its first characters settle. Which names
are reserved words is a matter of the table of these words alone. Outside code there is text and
there are open tags.
-/

namespace PhpImports

/-- The kinds of reserved words. -/
def Keyword.kinds : List TokenKind :=
  .keyword :: marked.map (·.2)

theorem Keyword.mem_kinds {label : Text} {kind : TokenKind} (h : kind? label = some kind) :
    kind ∈ kinds := by
  rw [kind?, Option.or_eq_some_iff] at h
  rcases h with h | ⟨-, h⟩
  · exact List.mem_cons_of_mem _ (List.mem_map_of_mem (Lead.mem_of_lookup h))
  · split at h
    · cases h
      exact List.mem_cons_self
    · cases h

theorem Lead.of_isLabelStart {c : Char} (hc : isLabelStart c = true) : Lead.of c = .label := by
  have hblank : isBlank c = false := by
    rw [Bool.eq_false_iff]
    intro hblank
    simp only [isBlank, isIndent, Bool.or_eq_true, decide_eq_true_iff] at hblank
    rcases hblank with ((rfl | rfl) | rfl) | rfl <;> cases hc
  rw [Lead.of, hblank, hc]
  rfl

namespace Lexeme

/-- The kinds of names that start with a label. -/
def nameKinds : List TokenKind :=
  [.ident, .nameQualified, .nameRelative] ++ Keyword.kinds

/-- The kinds in code that are not those of names and separators. -/
def plainKinds : List TokenKind :=
  [.whitespace, .comment, .docComment, .variable, .number, .stringLiteral, .heredoc, .attribute,
   .closeTag, .arrow, .nullsafeArrow, .doubleColon, .punct, .unknown, .semicolon, .comma, .lBrace,
   .rBrace, .lParen, .rParen, .lBracket, .rBracket]

theorem nameKind_mem (afterAccess : Bool) (name : Text) :
    nameKind afterAccess name ∈ nameKinds := by
  rw [nameKind]
  split
  · split <;> decide
  · split
    · decide
    · cases hk : Keyword.kind? name with
      | none => decide
      | some kind => exact List.mem_append_right _ (Keyword.mem_kinds hk)

theorem enclosed_eq (kind : TokenKind) (fault : Cause) (opener : Text) (x : Text × Option Text) :
    enclosed kind fault opener x =
      ({ kind, text := opener ++ x.1, fault := if x.2.isSome then none else some fault },
        x.2.getD []) := by
  obtain ⟨body, rest⟩ := x
  cases rest <;> rfl

theorem enclosed_kind (kind : TokenKind) (fault : Cause) (opener : Text)
    (x : Text × Option Text) : (enclosed kind fault opener x).1.kind = kind := by
  rw [enclosed_eq]

theorem heredoc?_kind {s : Text} {x : Lexeme × Text} (h : heredoc? s = some x) :
    x.1.kind = .heredoc := by
  obtain ⟨_, _, rfl⟩ := Option.map_eq_some_iff.1 h
  exact enclosed_kind .heredoc _ _ _

theorem openTag?_kind {shortTags : Bool} {s : Text} {kind : TokenKind} {n : Nat}
    (h : openTag? shortTags s = some (kind, n)) : kind = .openTag ∨ kind = .openTagWithEcho := by
  rw [openTag?.eq_def] at h
  grind

/-- The kinds of the characters that are tokens of their own kind. -/
def markKinds : List TokenKind :=
  [.semicolon, .comma, .lBrace, .rBrace, .lParen, .rParen, .lBracket, .rBracket]

theorem mem_markKinds_of_symbol {c : Char} {kind : TokenKind}
    (h : (c, Lead.mark kind) ∈ Lead.symbols) : kind ∈ markKinds := by
  have hmarks : ∀ e ∈ Lead.symbols,
      (match e.2 with | .mark k => markKinds.contains k | _ => true) = true := by decide
  exact List.contains_iff_mem.1 (hmarks _ h)

theorem mem_markKinds {c : Char} {kind : TokenKind} (h : Lead.of c = .mark kind) :
    kind ∈ markKinds := by
  have hannounced := Lead.announced_of c
  rw [h] at hannounced
  exact mem_markKinds_of_symbol hannounced

/-- In code a lexeme is a name that starts with a label, starts with a separator, or is neither. -/
theorem ofCode_cases (afterAccess : Bool) (c : Char) (r : Text) :
    (isLabelStart c = true ∧ ofCode afterAccess c r = name afterAccess (c :: r)) ∨
      (c = separator ∧ ofCode afterAccess c r =
        if r.startsLabel then fullyQualifiedName (c :: r) else cut .nsSeparator 1 (c :: r)) ∨
      plainKinds.contains (ofCode afterAccess c r).1.kind = true := by
  have hlead := Lead.announced_of c
  rw [ofCode]
  generalize Lead.of c = lead at hlead
  cases lead with simp only [Lead.Announced] at hlead
  | label => exact .inl ⟨hlead, rfl⟩
  | separator => exact .inr (.inl ⟨by simpa [Lead.symbols, separator] using hlead, rfl⟩)
  | blank | operator | stray | digit => exact .inr (.inr rfl)
  | hash | minus | colon | dot | dollar =>
    refine .inr (.inr ?_)
    simp only
    split <;> rfl
  | slash =>
    refine .inr (.inr ?_)
    simp only
    split
    · rfl
    · split
      · rw [blockComment, enclosed_kind]
        split <;> rfl
      · rfl
  | question =>
    refine .inr (.inr ?_)
    simp only
    split
    · rfl
    · split <;> rfl
  | mark kind =>
    have hplain : ∀ k ∈ markKinds, plainKinds.contains k = true := by decide
    exact .inr (.inr (hplain _ (mem_markKinds_of_symbol hlead)))
  | quote =>
    refine .inr (.inr ?_)
    simp only [quoted, enclosed_kind]
    rfl
  | less =>
    refine .inr (.inr ?_)
    simp only
    split
    · next x hx =>
      split at hx
      · rw [heredoc?_kind hx]
        rfl
      · cases hx
    · rfl

end Lexeme
end PhpImports

import PhpImports.Proofs.Import.Extent

/-!
# How a draft grows

Whatever pieces it reads, a draft only grows. It counts the braces that are opened, remembers the
first of them and reports every later one (`CountsBraces`). The shared path is appended to, at
braces only. To the imports one is added at a time, at commas and semicolons only, and its name
starts with the path that was shared when it was closed (`GrowsBy`). Nothing here stops at a
semicolon: reading may go on behind it.
-/

namespace PhpImports

/-- The pieces that open a brace. -/
def openBraces (ps : List Piece) : List Piece :=
  ps.filter (·.kind = .lBrace)

/-- The report of a brace that is opened when `first` already was. -/
def nestedReport (first brace : Piece) : Diagnostic :=
  { Cause.nestedGroup.report brace.span with
    notes := [⟨"outer group opened here".toList, first.span⟩] }

/-- What is reported of braces that are opened one after another: all of them but the first. -/
def nestedReports : List Piece → List Diagnostic
  | [] => []
  | first :: later => later.map (nestedReport first)

theorem openBraces_concat (ps : List Piece) (p : Piece) :
    openBraces (ps ++ [p]) = if p.kind = .lBrace then openBraces ps ++ [p] else openBraces ps := by
  rw [openBraces, List.filter_append]
  split
  · next h => simp [openBraces, h]
  · next h => simp [openBraces, h]

namespace Draft

/-- The draft has taken note of all braces of the pieces. -/
structure CountsBraces (ps : List Piece) (d : Draft) : Prop where
  braces : d.braces.toNat = (openBraces ps).length
  firstBrace : d.firstBrace = (openBraces ps).head?.map (·.span)
  diagnostics : d.diagnostics = nestedReports (openBraces ps)

/-- What a piece of this kind adds to a draft. -/
structure GrowsBy (kind : TokenKind) (d d' : Draft) : Prop where
  groupPath : d'.groupPath = d.groupPath ∨
    kind = .lBrace ∧ ∃ segment, d'.groupPath = d.groupPath ++ segment
  imports : d'.imports = d.imports ∨
    (kind = .comma ∨ kind = .semicolon) ∧
      ∃ i, d'.imports = d.imports ++ [i] ∧ d.groupPath <+: i.name

/-- What was read stays, and the imports that were added start with the path that was shared. -/
structure GrowsInto (d d' : Draft) : Prop where
  groupPath : d.groupPath <+: d'.groupPath
  imports : ∃ added, d'.imports = d.imports ++ added ∧ ∀ i ∈ added, d.groupPath <+: i.name

/-- The draft after the tokens of a source text, read on behind semicolons. -/
def afterTokens (source : Text) (ts : List Token) : Draft :=
  (ts.map (·.inText source)).foldl next {}

variable {ps : List Piece} {p : Piece} {d d' d'' : Draft}

theorem next_of_brace (hp : p.kind = .lBrace) (d : Draft) : d.next p = d.openGroup p.span := by
  rw [next, hp]
  rfl

/-- A piece that is no brace leaves alone what a draft knows of braces. -/
theorem next_of_not_brace (hp : p.kind ≠ .lBrace) (d : Draft) :
    (d.next p).groupPath = d.groupPath ∧ (d.next p).braces = d.braces ∧
      (d.next p).firstBrace = d.firstBrace ∧ (d.next p).diagnostics = d.diagnostics := by
  have hclose : d.closeImport.groupPath = d.groupPath ∧ d.closeImport.braces = d.braces ∧
      d.closeImport.firstBrace = d.firstBrace ∧ d.closeImport.diagnostics = d.diagnostics := by
    rw [closeImport]
    split <;> exact ⟨rfl, rfl, rfl, rfl⟩
  rw [next]
  split
  · rw [extend]
    cases d.asName <;> exact ⟨rfl, rfl, rfl, rfl⟩
  · split
    · exact ⟨rfl, rfl, rfl, rfl⟩
    · exact hclose
    · exact hclose
    · next hbrace => exact absurd hbrace hp
    · exact ⟨rfl, rfl, rfl, rfl⟩

theorem countsBraces_default : ({} : Draft).CountsBraces [] :=
  ⟨rfl, rfl, rfl⟩

theorem CountsBraces.openGroup (h : d.CountsBraces ps) (hp : p.kind = .lBrace)
    (hroom : (openBraces ps).length + 1 < UInt32.size) :
    (d.openGroup p.span).CountsBraces (ps ++ [p]) := by
  have hbraces : (d.braces + 1).toNat = (openBraces ps).length + 1 := by
    rw [UInt32.toNat_add, h.braces]
    exact Nat.mod_eq_of_lt hroom
  have hfirst := h.firstBrace
  have hfound := h.diagnostics
  have hopened : openBraces (ps ++ [p]) = openBraces ps ++ [p] := by
    rw [openBraces_concat, if_pos hp]
  refine ⟨?_, ?_, ?_⟩
  · rw [hopened, List.length_append, List.length_singleton]
    exact hbraces
  · rw [hopened, Draft.openGroup, hfirst]
    cases openBraces ps <;> rfl
  · rw [hopened, Draft.openGroup]
    cases hbefore : openBraces ps with
    | nil =>
      rw [hbefore] at hfirst hfound
      simp only [hfirst, hfound]
      rfl
    | cons first later =>
      rw [hbefore] at hfirst hfound
      simp only [hfirst, hfound, List.head?_cons, Option.map_some, List.cons_append, nestedReports,
        List.map_append]
      rfl

theorem CountsBraces.next (h : d.CountsBraces ps) (p : Piece)
    (hroom : (openBraces ps).length + 1 < UInt32.size) :
    (d.next p).CountsBraces (ps ++ [p]) := by
  by_cases hp : p.kind = .lBrace
  · rw [next_of_brace hp]
    exact h.openGroup hp hroom
  · obtain ⟨-, hbraces, hfirst, hfound⟩ := next_of_not_brace hp d
    have hopened : openBraces (ps ++ [p]) = openBraces ps := by rw [openBraces_concat, if_neg hp]
    refine ⟨?_, ?_, ?_⟩
    · rw [hbraces, hopened, h.braces]
    · rw [hfirst, hopened, h.firstBrace]
    · rw [hfound, hopened, h.diagnostics]

/-- Fewer pieces than the counter has room for are counted right. -/
theorem countsBraces_foldl_next (hlength : ps.length < UInt32.size) :
    (ps.foldl next {}).CountsBraces ps := by
  induction ps using List.reverseRecOn with
  | nil => exact countsBraces_default
  | append_singleton ps p ih =>
    rw [List.length_append, List.length_singleton] at hlength
    have hopened : (openBraces ps).length ≤ ps.length := List.length_filter_le _ _
    rw [List.foldl_concat]
    exact (ih (by omega)).next p (by omega)

/-- The import that a draft closes starts with the path it shares. -/
theorem groupPath_prefix_clause (d : Draft) : d.groupPath <+: d.clause.name := by
  rw [clause, Text.appendSegment_eq]
  exact List.prefix_append _ _

theorem growsBy_next (d : Draft) (p : Piece) : GrowsBy p.kind d (d.next p) where
  groupPath := by
    by_cases hp : p.kind = .lBrace
    · rw [next_of_brace hp]
      exact Or.inr ⟨hp, d.groupPath.trimmed d.name, Text.appendSegment_eq _ _⟩
    · exact Or.inl (next_of_not_brace hp d).1
  imports := by
    rcases d.imports_next p with hsame | ⟨hkind, -, hadds⟩
    · exact Or.inl hsame
    · exact Or.inr ⟨hkind, d.clause, hadds, d.groupPath_prefix_clause⟩

theorem GrowsBy.growsInto {kind : TokenKind} (h : GrowsBy kind d d') : d.GrowsInto d' where
  groupPath := by
    rcases h.groupPath with hsame | ⟨-, segment, hadds⟩
    · rw [hsame]
    · exact ⟨segment, hadds.symm⟩
  imports := by
    rcases h.imports with hsame | ⟨-, i, hadds, hname⟩
    · exact ⟨[], by rw [hsame, List.append_nil], List.forall_mem_nil _⟩
    · exact ⟨[i], hadds, List.forall_mem_singleton.2 hname⟩

theorem GrowsInto.refl (d : Draft) : d.GrowsInto d where
  groupPath := List.prefix_rfl
  imports := ⟨[], (List.append_nil _).symm, List.forall_mem_nil _⟩

theorem GrowsInto.trans (h : d.GrowsInto d') (h' : d'.GrowsInto d'') : d.GrowsInto d'' where
  groupPath := h.groupPath.trans h'.groupPath
  imports := by
    obtain ⟨added, hadded, hnames⟩ := h.imports
    obtain ⟨added', hadded', hnames'⟩ := h'.imports
    refine ⟨added ++ added', by rw [hadded', hadded, List.append_assoc], ?_⟩
    exact List.forall_mem_append.2 ⟨hnames, fun i hi => h.groupPath.trans (hnames' i hi)⟩

theorem growsInto_foldl_next (d : Draft) (ps : List Piece) : d.GrowsInto (ps.foldl next d) := by
  induction ps generalizing d with
  | nil => exact .refl d
  | cons p ps ih => exact (d.growsBy_next p).growsInto.trans (ih (d.next p))

/-- Over any tokens, fewer than the counter has room for, a draft counts the braces that are opened,
remembers the first and reports the others. Each token appends to the shared path if it is a brace,
adds at most one import if it is a comma or a semicolon, and does neither otherwise; so whatever the
path is after some tokens, all later paths start with it, and so do the names of all imports that
are added later. -/
theorem grows_with_tokens (source : Text) {ts : List Token} (hlength : ts.length < UInt32.size) :
    (afterTokens source ts).CountsBraces (ts.map (·.inText source)) ∧
      (∀ A t B, ts = A ++ t :: B →
        GrowsBy t.kind (afterTokens source A) (afterTokens source (A ++ [t]))) ∧
      ∀ A B, ts = A ++ B → (afterTokens source A).GrowsInto (afterTokens source ts) := by
  refine ⟨?_, ?_, ?_⟩
  · exact countsBraces_foldl_next (by rwa [List.length_map])
  · intro A t _ _
    have hlast : afterTokens source (A ++ [t]) =
        (afterTokens source A).next (t.inText source) := by
      rw [afterTokens, List.map_append, List.map_singleton, List.foldl_concat]
      rfl
    rw [hlast]
    exact growsBy_next _ (t.inText source)
  · rintro A B rfl
    rw [afterTokens, afterTokens, List.map_append, List.foldl_append]
    exact growsInto_foldl_next _ _

/-- Groups in a group, the last of them behind the semicolon that ends the statement. -/
theorem grows_with_tokens_nested :
    let source : Text := "A\x7bB\x7bC,D;E\x7b".toList
    let A : List Token := [⟨.ident, ⟨0, 1⟩⟩, ⟨.lBrace, ⟨1, 2⟩⟩, ⟨.ident, ⟨2, 3⟩⟩]
    let B : List Token :=
      [⟨.lBrace, ⟨3, 4⟩⟩, ⟨.ident, ⟨4, 5⟩⟩, ⟨.comma, ⟨5, 6⟩⟩, ⟨.ident, ⟨6, 7⟩⟩,
       ⟨.semicolon, ⟨7, 8⟩⟩, ⟨.ident, ⟨8, 9⟩⟩, ⟨.lBrace, ⟨9, 10⟩⟩]
    let d := afterTokens source (A ++ B)
    (A ++ B).length < UInt32.size ∧ d.CountsBraces ((A ++ B).map (·.inText source)) ∧
      (d.braces, d.firstBrace) = (3, some ⟨1, 2⟩) ∧
      d.diagnostics.map (fun x => (x.code, x.span, x.notes.map (·.span))) =
        [(some "W0002".toList, some ⟨3, 4⟩, [⟨1, 2⟩]), (some "W0002".toList, some ⟨9, 10⟩, [⟨1, 2⟩])] ∧
      GrowsBy .lBrace (afterTokens source A) (afterTokens source (A ++ [⟨.lBrace, ⟨3, 4⟩⟩])) ∧
      (afterTokens source A).GrowsInto d ∧
      (afterTokens source A).groupPath = "\\A".toList ∧ d.groupPath = "\\ABE".toList ∧
      d.imports.map (·.name) = ["\\ABC".toList, "\\ABD".toList] := by
  intro source A B d
  have hlength : (A ++ B).length < UInt32.size := by decide
  obtain ⟨hcounts, hsteps, hgrows⟩ := grows_with_tokens source hlength
  exact ⟨hlength, hcounts, by decide, by decide, hsteps A _ _ rfl, hgrows A B rfl, by decide,
    by decide, by decide⟩

end Draft
end PhpImports

import PhpImports.Proofs.Import.Entry

/-!
# Where statements are reported

What is reported of a statement points at one of its pieces, at the least span that covers several
of them, or behind the last one. So a property that the spans of the pieces have, and that merging
keeps, holds wherever a report of the statement points (`Statement.pointsAll_read`). The place that
stands in for an unknown one is never needed for an import: a name that is not empty was read from
a piece, and the span is dropped only together with the name.
-/

namespace PhpImports

/-- Wherever the diagnostic points, and it does point somewhere, the span has the property. -/
structure Diagnostic.PointsAll (P : Span → Prop) (d : Diagnostic) : Prop where
  span : ∃ s, d.span = some s ∧ P s
  notes : ∀ n ∈ d.notes, P n.span

theorem Cause.pointsAll_report {P : Span → Prop} {s : Span} (h : P s) (c : Cause) :
    (c.report s).PointsAll P where
  span := ⟨s, rfl, h⟩
  notes := by
    intro n hn
    cases hn

namespace Draft

/-- Whatever the draft has noted down of places has the property, and the place of a name is known. -/
structure PlacesAll (P : Span → Prop) (d : Draft) : Prop where
  known : d.name ≠ [] → d.nameSpan ≠ none
  nameSpan : ∀ s ∈ d.nameSpan, P s
  imports : ∀ i ∈ d.imports, P i.span
  firstBrace : ∀ s ∈ d.firstBrace, P s
  diagnostics : ∀ x ∈ d.diagnostics, x.PointsAll P

section Steps

variable {P : Span → Prop} {d : Draft}

theorem placesAll_default : ({} : Draft).PlacesAll P where
  known := fun h => absurd rfl h
  nameSpan := by
    intro s hs
    cases hs
  imports := by
    intro i hi
    cases hi
  firstBrace := by
    intro s hs
    cases hs
  diagnostics := by
    intro x hx
    cases hx

theorem nameSpan_extend (d : Draft) (p : Piece) :
    (d.extend p).nameSpan = some (match d.nameSpan with
      | some span => span.merge p.span
      | none => p.span) := by
  rw [extend]
  cases d.asName <;> rfl

theorem PlacesAll.extend (merge : ∀ a b, P a → P b → P (a.merge b)) (h : d.PlacesAll P) {p : Piece}
    (hp : P p.span) : (d.extend p).PlacesAll P := by
  have hspan := d.nameSpan_extend p
  have hcovered : ∀ s ∈ (d.extend p).nameSpan, P s := by
    intro s hs
    rw [hspan, Option.mem_some_iff] at hs
    subst hs
    cases hname : d.nameSpan with
    | none => exact hp
    | some read => exact merge read p.span (h.nameSpan read hname) hp
  refine ⟨fun _ => by rw [hspan]; exact Option.some_ne_none _, hcovered, ?_, ?_, ?_⟩
  · rw [Draft.extend]
    cases d.asName <;> exact h.imports
  · rw [Draft.extend]
    cases d.asName <;> exact h.firstBrace
  · rw [Draft.extend]
    cases d.asName <;> exact h.diagnostics

theorem PlacesAll.closeImport (h : d.PlacesAll P) : d.closeImport.PlacesAll P := by
  have hnone : ∀ s ∈ (none : Option Span), P s := by
    intro s hs
    cases hs
  rw [Draft.closeImport]
  split
  · exact ⟨fun hname => absurd rfl hname, hnone, h.imports, h.firstBrace, h.diagnostics⟩
  · next hname =>
    refine ⟨fun hname => absurd rfl hname, hnone, ?_, h.firstBrace, h.diagnostics⟩
    intro i hi
    rcases List.mem_append.1 hi with hi | hi
    · exact h.imports i hi
    · obtain rfl := List.mem_singleton.1 hi
      obtain ⟨s, hs⟩ := Option.ne_none_iff_exists'.1 (h.known hname)
      rw [hs]
      exact h.nameSpan s hs

theorem PlacesAll.openGroup (h : d.PlacesAll P) {brace : Span} (hbrace : P brace) :
    (d.openGroup brace).PlacesAll P := by
  refine ⟨fun hname => absurd rfl hname, ?_, h.imports, ?_, ?_⟩
  · intro s hs
    cases hs
  · intro s hs
    obtain rfl : d.firstBrace.getD brace = s := Option.some.inj hs
    cases hfirst : d.firstBrace with
    | none => exact hbrace
    | some outer => exact h.firstBrace outer hfirst
  · rw [Draft.openGroup]
    cases hfirst : d.firstBrace with
    | none => exact h.diagnostics
    | some outer =>
      intro x hx
      rcases List.mem_append.1 hx with hx | hx
      · exact h.diagnostics x hx
      · obtain rfl := List.mem_singleton.1 hx
        refine ⟨⟨brace, rfl, hbrace⟩, ?_⟩
        intro n hn
        obtain rfl := List.mem_singleton.1 hn
        exact h.firstBrace outer hfirst

theorem PlacesAll.next (merge : ∀ a b, P a → P b → P (a.merge b)) (h : d.PlacesAll P) {p : Piece}
    (hp : P p.span) : (d.next p).PlacesAll P := by
  rw [Draft.next]
  split
  · exact h.extend merge hp
  · split
    · exact ⟨h.known, h.nameSpan, h.imports, h.firstBrace, h.diagnostics⟩
    · exact h.closeImport
    · exact h.closeImport
    · exact h.openGroup hp
    · exact h

end Steps

theorem placesAll_readAll {P : Span → Prop} (merge : ∀ a b, P a → P b → P (a.merge b))
    {ps : List Piece} (hps : ∀ p ∈ ps, P p.span) : (({} : Draft).readAll ps).1.PlacesAll P :=
  readAll_induction (fun _ p hp h => h.next merge (hps p hp)) {} placesAll_default

/-- A name that is not empty was read from somewhere, whatever pieces were read. -/
theorem nameSpan_ne_none {ps : List Piece} (h : (ps.foldl next {}).name ≠ []) :
    (ps.foldl next {}).nameSpan ≠ none := by
  have hplaces : (ps.foldl next {}).PlacesAll fun _ => True := by
    refine List.foldlRecOn ps next placesAll_default ?_
    intro d hd p _
    exact hd.next (fun _ _ _ _ => trivial) trivial
  exact hplaces.known h

/-- While it is read, a statement is only reported for its braces. -/
theorem code_diagnostics_readAll (ps : List Piece) :
    ∀ x ∈ (({} : Draft).readAll ps).1.diagnostics, x.code = Cause.nestedGroup.code? := by
  refine readAll_induction (P := fun d => ∀ x ∈ d.diagnostics, x.code = Cause.nestedGroup.code?)
    ?_ {} ?_
  · intro d p _ hd
    rw [next]
    split
    · rw [Draft.extend]
      split <;> exact hd
    · split
      · exact hd
      · rw [Draft.closeImport]
        split <;> exact hd
      · rw [Draft.closeImport]
        split <;> exact hd
      · rw [Draft.openGroup]
        cases d.firstBrace with
        | none => exact hd
        | some outer =>
          intro x hx
          rcases List.mem_append.1 hx with hx | hx
          · exact hd x hx
          · obtain rfl := List.mem_singleton.1 hx
            rfl
      · exact hd
  · intro x hx
    cases hx

end Draft

/-- What can be wrong with an import. -/
def ImportClause.causes (i : ImportClause) : List Cause :=
  [.trailingSeparator i.name, .emptyAlias i.name, .duplicateAlias i.localName]

namespace Statement

theorem mem_diagnostics_enter {s : Statement} {i : ImportClause} {d : Diagnostic}
    (h : d ∈ (s.enter i).diagnostics) :
    d ∈ s.diagnostics ∨ ∃ c ∈ i.causes, d = c.report i.span := by
  have hadded : ∀ c ∈ i.causes, d ∈ s.diagnostics ++ [c.report i.span] →
      d ∈ s.diagnostics ∨ ∃ c ∈ i.causes, d = c.report i.span := by
    intro c hc hd
    rcases List.mem_append.1 hd with hd | hd
    · exact Or.inl hd
    · exact Or.inr ⟨c, hc, List.mem_singleton.1 hd⟩
  rw [enter] at h
  split at h
  · exact hadded _ (by simp [ImportClause.causes]) h
  · split at h
    · exact hadded _ (by simp [ImportClause.causes]) h
    · split at h
      · exact hadded _ (by simp [ImportClause.causes]) h
      · exact Or.inl (by simpa using h)

theorem mem_diagnostics_foldl_enter {is : List ImportClause} {s : Statement} {d : Diagnostic}
    (h : d ∈ (is.foldl enter s).diagnostics) :
    d ∈ s.diagnostics ∨ ∃ i ∈ is, ∃ c ∈ i.causes, d = c.report i.span := by
  induction is generalizing s with
  | nil => exact Or.inl h
  | cons i is ih =>
    rcases ih h with h | ⟨j, hj, hd⟩
    · rcases mem_diagnostics_enter h with h | hd
      · exact Or.inl h
      · exact Or.inr ⟨i, List.mem_cons_self, hd⟩
    · exact Or.inr ⟨j, List.mem_cons_of_mem i hj, hd⟩

/-- Where a statement that has no semicolon is reported if it has no name open. -/
def fileEnd (ps : List Piece) : Span :=
  (ps.getLast?.map (·.span.atStop)).getD Span.zero

/-- A statement is reported for a brace, for its missing end, or for one of its imports. -/
theorem mem_diagnostics_read {ps : List Piece} {d : Diagnostic} (h : d ∈ (read ps).diagnostics) :
    d ∈ (({} : Draft).readAll ps).1.diagnostics ∨
      d = (({} : Draft).readAll ps).1.unterminated (fileEnd ps) ∨
      ∃ i ∈ (({} : Draft).readAll ps).1.imports, ∃ c ∈ i.causes, d = c.report i.span := by
  rcases mem_diagnostics_foldl_enter h with h | h
  · simp only at h
    split at h
    · exact Or.inl h
    · rcases List.mem_append.1 h with h | h
      · exact Or.inl h
      · exact Or.inr (Or.inl (List.mem_singleton.1 h))
  · exact Or.inr (Or.inr h)

/-- Of a statement only spans with the property are reported, if those of its pieces have it and
that of its end has it. -/
theorem pointsAll_read {P : Span → Prop} (merge : ∀ a b, P a → P b → P (a.merge b))
    {ps : List Piece} (hps : ∀ p ∈ ps, P p.span) (hend : P (fileEnd ps)) :
    ∀ d ∈ (read ps).diagnostics, d.PointsAll P := by
  have hplaces := Draft.placesAll_readAll merge hps
  intro d hd
  rcases mem_diagnostics_read hd with hd | rfl | ⟨i, hi, c, -, rfl⟩
  · exact hplaces.diagnostics d hd
  · refine ⟨⟨_, rfl, ?_⟩, fun n hn => absurd hn List.not_mem_nil⟩
    cases hspan : (({} : Draft).readAll ps).1.nameSpan with
    | none => exact hend
    | some s => exact hplaces.nameSpan s hspan
  · exact c.pointsAll_report (hplaces.imports i hi)

theorem exists_of_mem_readAll {ps : List Piece} {s : Statement} (h : s ∈ readAll ps) :
    ∃ word rest, word :: rest <:+ ps ∧ word.kind = .kwUse ∧ s = read rest := by
  induction ps with
  | nil => cases h
  | cons p ps ih =>
    rw [readAll] at h
    have hlater : s ∈ readAll ps →
        ∃ word rest, word :: rest <:+ p :: ps ∧ word.kind = .kwUse ∧ s = read rest := by
      intro hs
      obtain ⟨word, rest, hsuffix, hword⟩ := ih hs
      exact ⟨word, rest, hsuffix.trans (List.suffix_cons p ps), hword⟩
    split at h
    · next hp =>
      rcases List.mem_cons.1 h with rfl | h
      · exact ⟨p, ps, List.suffix_rfl, hp, rfl⟩
      · exact hlater h
    · exact hlater h

end Statement

/-- All that a file's imports are reported for is reported of one of its statements. -/
theorem FileImports.exists_of_mem_diagnostics {ps : List Piece} {d : Diagnostic}
    (h : d ∈ (ofPieces ps).diagnostics) : ∃ word rest, word :: rest <:+ ps ∧ word.kind = .kwUse ∧
      d ∈ (Statement.read rest).diagnostics := by
  obtain ⟨s, hs, hd⟩ := List.mem_flatMap.1 h
  obtain ⟨word, rest, hsuffix, hword, rfl⟩ := Statement.exists_of_mem_readAll hs
  exact ⟨word, rest, hsuffix, hword, hd⟩

end PhpImports

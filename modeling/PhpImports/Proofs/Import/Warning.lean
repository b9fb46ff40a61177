import PhpImports.Proofs.Import.Entry

/-!
# What is reported of statements

Whatever pieces a statement is read from, nothing in it is an error: what cannot become an import is
left out with a warning (`warns_ofPieces`).
-/

namespace PhpImports

/-- There are no errors among the diagnostics. -/
def Warns (ds : List Diagnostic) : Prop :=
  ∀ d ∈ ds, d.severity = .warning

variable {ds es : List Diagnostic}

theorem warns_nil : Warns [] := by
  intro d hd
  cases hd

theorem Warns.append (h : Warns ds) (h' : Warns es) : Warns (ds ++ es) := by
  intro d hd
  rcases List.mem_append.1 hd with hd | hd
  · exact h d hd
  · exact h' d hd

theorem Warns.concat (h : Warns ds) {d : Diagnostic} (hd : d.severity = .warning) :
    Warns (ds ++ [d]) := by
  refine h.append ?_
  intro d' hd'
  rw [List.mem_singleton.1 hd']
  exact hd

theorem Draft.warns_next (d : Draft) (p : Piece) (h : Warns d.diagnostics) :
    Warns (d.next p).diagnostics := by
  rw [Draft.next]
  split
  · rw [Draft.extend]
    split <;> exact h
  · split
    · exact h
    · rw [Draft.closeImport]
      split <;> exact h
    · rw [Draft.closeImport]
      split <;> exact h
    · rw [Draft.openGroup]
      split
      · exact h.concat rfl
      · exact h
    · exact h

namespace Statement

theorem warns_enter {s : Statement} (h : Warns s.diagnostics) (i : ImportClause) :
    Warns (s.enter i).diagnostics := by
  rw [enter]
  split
  · exact h.concat rfl
  · split
    · exact h.concat rfl
    · refine h.append ?_
      split
      · exact warns_nil.concat rfl
      · exact warns_nil

theorem warns_foldl_enter {s : Statement} (h : Warns s.diagnostics) (is : List ImportClause) :
    Warns (is.foldl enter s).diagnostics := by
  induction is generalizing s with
  | nil => exact h
  | cons i is ih => exact ih (warns_enter h i)

theorem warns_ofDraft {d : Draft} (h : Warns d.diagnostics) (terminated : Bool) (fileEnd : Span) :
    Warns (ofDraft d terminated fileEnd).diagnostics := by
  refine warns_foldl_enter ?_ d.imports
  simp only
  split
  · exact h
  · exact h.concat rfl

theorem warns_read (ps : List Piece) : Warns (read ps).diagnostics :=
  warns_ofDraft (Draft.readAll_induction (fun d p _ => d.warns_next p) {} warns_nil) _ _

theorem warns_readAll (ps : List Piece) : ∀ s ∈ readAll ps, Warns s.diagnostics := by
  induction ps with
  | nil =>
    intro s hs
    cases hs
  | cons p ps ih =>
    intro s hs
    rw [readAll] at hs
    split at hs
    · rcases List.mem_cons.1 hs with rfl | hs
      · exact warns_read ps
      · exact ih s hs
    · exact ih s hs

end Statement

theorem FileImports.warns_ofPieces (ps : List Piece) : Warns (ofPieces ps).diagnostics := by
  intro d hd
  obtain ⟨s, hs, hd⟩ := List.mem_flatMap.1 hd
  exact Statement.warns_readAll ps s hs d hd

end PhpImports

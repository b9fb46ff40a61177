import PhpImports.Proofs.Import.Entry
import PhpImports.Proofs.Import.Path

/-!
# Imported names lead from the root

A draft keeps its shared path and the names of its imports rooted, whatever pieces it reads and in
whatever order, a semicolon being no end. A kept import is not the root alone, so the names of an
alias table start with exactly one separator. Texts of pieces are arbitrary here.
-/

namespace PhpImports

/-- The paths of a draft are rooted. -/
structure Draft.IsRooted (d : Draft) : Prop where
  groupPath : d.groupPath.IsRooted
  imports : ∀ i ∈ d.imports, i.name.IsRooted

namespace Draft

theorem isRooted_default : ({} : Draft).IsRooted where
  groupPath := Or.inl rfl
  imports := by
    intro i hi
    cases hi

theorem IsRooted.extend {d : Draft} (h : d.IsRooted) (p : Piece) : (d.extend p).IsRooted := by
  rw [Draft.extend]
  cases d.asName with
  | none => exact ⟨h.groupPath, h.imports⟩
  | some read => exact ⟨h.groupPath, h.imports⟩

theorem IsRooted.closeImport {d : Draft} (h : d.IsRooted) : d.closeImport.IsRooted := by
  rw [Draft.closeImport]
  split
  · exact ⟨h.groupPath, h.imports⟩
  · refine ⟨h.groupPath, ?_⟩
    intro i hi
    rcases List.mem_append.1 hi with hi | hi
    · exact h.imports i hi
    · obtain rfl := List.mem_singleton.1 hi
      exact h.groupPath.appendSegment d.name

theorem IsRooted.openGroup {d : Draft} (h : d.IsRooted) (brace : Span) :
    (d.openGroup brace).IsRooted :=
  ⟨h.groupPath.appendSegment d.name, h.imports⟩

theorem IsRooted.next {d : Draft} (h : d.IsRooted) (p : Piece) : (d.next p).IsRooted := by
  rw [Draft.next]
  split
  · exact h.extend p
  · split
    · exact ⟨h.groupPath, h.imports⟩
    · exact h.closeImport
    · exact h.closeImport
    · exact h.openGroup p.span
    · exact h

theorem IsRooted.foldl_next {d : Draft} (h : d.IsRooted) (ps : List Piece) :
    (ps.foldl Draft.next d).IsRooted := by
  induction ps generalizing d with
  | nil => exact h
  | cons p ps ih => exact ih (h.next p)

theorem IsRooted.readAll {d : Draft} (h : d.IsRooted) (ps : List Piece) :
    (d.readAll ps).1.IsRooted :=
  readAll_induction (fun _ p _ hd => hd.next p) d h

end Draft

theorem isRooted_of_mem_importClauses {ps : List Piece} {i : ImportClause}
    (h : i ∈ importClauses ps) : i.name.IsRooted := by
  induction ps with
  | nil => cases h
  | cons p ps ih =>
    rw [importClauses] at h
    split at h
    · rcases List.mem_append.1 h with h | h
      · exact (Draft.isRooted_default.readAll ps).imports i h
      · exact ih h
    · exact ih h

/-- Whatever tokens are read in whatever text, each name in the alias table has one leading
separator and no trailing one, and each alias is a word. Behind it, no sequence of pieces takes the
shared path or an import of a draft away from the root. -/
theorem ofTokens_names_lead_from_root (source : Text) (ts : List Token) :
    (∀ e ∈ (FileImports.ofTokens source ts).table.entries,
      e.2.LeadsOnce ∧ e.2.getLast? ≠ some separator ∧ e.1 ≠ []) ∧
    ∀ ps : List Piece,
      (ps.foldl Draft.next {}).groupPath.IsRooted ∧
        ∀ i ∈ (ps.foldl Draft.next {}).imports, i.name.IsRooted := by
  constructor
  · intro e he
    obtain ⟨i, hi, rfl⟩ := mem_entries_ofPieces.1 he
    have hlast : i.name.getLast? ≠ some separator := hi.1.1
    have hrooted : i.name.IsRooted := isRooted_of_mem_importClauses hi.mem
    exact ⟨hrooted.leadsOnce hlast, hlast, hi.1.2⟩
  · intro ps
    have h := Draft.isRooted_default.foldl_next ps
    exact ⟨h.groupPath, h.imports⟩

end PhpImports

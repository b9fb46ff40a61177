import PhpImports.Proofs.Printed.Statement
import PhpImports.Proofs.Report.LineEnding

/-!
# Reports on printed files

Printing a file of use declarations and reading it gives back what was printed: the table holds the
entries of all declarations, inserted in order (`File.report_text_eq`). Lexing finds nothing wrong,
and the only warnings are those of aliases that repeat in one declaration.
-/

namespace PhpImports.Printed

def File.entries (f : File) : List (Text × Text) :=
  f.declarations.flatMap (·.entries)

/-- The table that the declarations of a file ask for. -/
def File.table (f : File) : AliasTable :=
  f.entries.foldl (fun t e => t.insert e.1 e.2) .empty

theorem File.sound (f : File) : ∀ l ∈ f.lexemes, l.fault = none := by
  intro l hl
  obtain ⟨d, -, hl⟩ := List.mem_flatMap.1 hl
  rw [Declaration.lexemes, List.mem_cons, List.mem_append, List.mem_singleton] at hl
  rcases hl with rfl | hl | rfl
  · rfl
  · exact (d.body.inside l hl).sound
  · rfl

/-- If nothing that counts is at fault, then nothing is, and what counts is what is no trivia. -/
theorem filter_counts {ls : List Lexeme} (h : ∀ l ∈ ls.filter (·.counts), l.fault = none) :
    (∀ l ∈ ls, l.fault = none) ∧
      ls.filter (fun l => !l.kind.isTrivia) = ls.filter (·.counts) := by
  have hfault : ∀ l ∈ ls, l.fault = none := by
    intro l hl
    cases hl' : l.fault with
    | none => rfl
    | some cause =>
      have hcounts : l.counts = true := by rw [Lexeme.counts, hl']; simp
      have hnone := h l (List.mem_filter.2 ⟨hl, hcounts⟩)
      rw [hl'] at hnone
      cases hnone
  refine ⟨hfault, ?_⟩
  apply List.filter_congr
  intro l hl
  rw [Lexeme.counts, hfault l hl]
  simp

theorem erasePieces_place (start : Nat) (ls : List Lexeme) :
    erasePieces ((Lexeme.place start ls).map (·.piece)) =
      (ls.filter fun l => !l.kind.isTrivia).map piece := by
  induction ls generalizing start with
  | nil => rfl
  | cons l ls ih =>
    rw [Lexeme.place, List.map_cons]
    cases htrivia : l.kind.isTrivia with
    | true =>
      rw [erasePieces_cons_of_isTrivia htrivia, ih, List.filter_cons_of_neg (by simp [htrivia])]
    | false =>
      rw [erasePieces_cons htrivia, ih, List.filter_cons_of_pos (by simp [htrivia])]
      rfl

theorem filterMap_diagnostic?_place {ls : List Lexeme} (h : ∀ l ∈ ls, l.fault = none)
    (start : Nat) : (Lexeme.place start ls).filterMap (·.diagnostic?) = [] := by
  induction ls generalizing start with
  | nil => rfl
  | cons l ls ih =>
    have hl : Lexeme.Placed.diagnostic? ⟨l, .ofNat start (start + Text.size l.text)⟩ = none := by
      rw [Lexeme.Placed.diagnostic?, h l List.mem_cons_self]
      rfl
    rw [Lexeme.place, List.filterMap_cons, hl]
    exact ih (fun l' hl' => h l' (List.mem_cons_of_mem l hl')) _

/-- What is read behind the open tag. -/
def File.codeLexemes (f : File) (shortTags : Bool) : List Lexeme :=
  Lexeme.readAll shortTags (.code false) f.code.unifyLineEndings

/-- Nothing in the code is at fault, and what is no trivia was printed. -/
theorem File.codeLexemes_sound (f : File) (shortTags : Bool) :
    (∀ l ∈ f.codeLexemes shortTags, l.fault = none) ∧
      (f.codeLexemes shortTags).filter (fun l => !l.kind.isTrivia) = f.lexemes := by
  have hwording : (f.codeLexemes shortTags).filter (·.counts) = f.lexemes := f.wording shortTags
  have hfault : ∀ l ∈ (f.codeLexemes shortTags).filter (·.counts), l.fault = none := by
    rw [hwording]
    exact f.sound
  obtain ⟨hsound, hfilter⟩ := filter_counts hfault
  exact ⟨hsound, hfilter.trans hwording⟩

/-- The open tag is one lexeme, and code comes after it. -/
theorem File.lexemes_text (f : File) (shortTags : Bool) :
    Text.lexemes shortTags f.text.unifyLineEndings =
      { kind := .openTag, text := openTag } :: f.codeLexemes shortTags := by
  have hcr : '\r' ∉ openTag := by decide
  have htag : Lexeme.openTag? shortTags (openTag ++ f.code.unifyLineEndings) =
      some (.openTag, 6) := rfl
  have hhtml : Lexeme.ofHtml shortTags (openTag ++ f.code.unifyLineEndings) =
      ({ kind := .openTag, text := openTag }, f.code.unifyLineEndings) := by
    rw [Lexeme.ofHtml, htag]
    rfl
  have hcons : openTag ++ f.code.unifyLineEndings =
      '<' :: (openTag.tail ++ f.code.unifyLineEndings) := rfl
  rw [File.text, Text.unifyLineEndings_append_of_notMem hcr, Text.lexemes, hcons, Lexeme.readAll]
  simp only [Mode.lexeme]
  rw [← hcons, hhtml]
  rfl

/-- The lexer finds nothing wrong with a printed file. -/
theorem File.diagnostics_lex (f : File) (shortTags : Bool) :
    (f.text.unifyLineEndings.lex shortTags).diagnostics = [] := by
  have hall : ∀ l ∈ { kind := .openTag, text := openTag } :: f.codeLexemes shortTags,
      l.fault = none := by
    intro l hl
    rcases List.mem_cons.1 hl with rfl | hl
    · rfl
    · exact (f.codeLexemes_sound shortTags).1 l hl
  rw [Text.lex, f.lexemes_text]
  exact filterMap_diagnostic?_place hall 0

/-- Up to places, the imports of a printed file are those of its declarations. -/
theorem File.erase_imports (f : File) (shortTags : Bool) :
    (FileImports.ofPieces (skipOpening (f.text.unifyLineEndings.lex shortTags).pieces)).erase =
      FileImports.ofStatements (f.declarations.map (·.statement)) := by
  have hpieces : skipOpening (f.text.unifyLineEndings.lex shortTags).pieces =
      (Lexeme.place (0 + openTag.size) (f.codeLexemes shortTags)).map (·.piece) := by
    rw [Text.lex, f.lexemes_text]
    rfl
  rw [hpieces, FileImports.erase_ofPieces, erasePieces_place,
    (f.codeLexemes_sound shortTags).2, FileImports.ofPieces, f.readAll]

theorem table_foldl_overwrite (ds : List Declaration) (t : AliasTable) :
    (ds.map (·.statement)).foldl (fun t s => t.overwrite s.table) t =
      (ds.flatMap (·.entries)).foldl (fun t e => t.insert e.1 e.2) t := by
  induction ds generalizing t with
  | nil => rfl
  | cons d ds ih =>
    have hdeclaration : t.overwrite d.statement.table =
        d.entries.foldl (fun t e => t.insert e.1 e.2) t := by
      rw [d.table_statement, AliasTable.overwrite_foldl_insert]
      rfl
    rw [List.map_cons, List.foldl_cons, ih, hdeclaration, List.flatMap_cons, List.foldl_append]

/-- Reading a printed file gives back its table, without an error and without any other warning. -/
theorem File.report_text_eq (f : File) (h : f.text.size < UInt32.size) (shortTags : Bool)
    (name : Text) :
    (ImportReport.ofText shortTags name f.text).table = f.table ∧
      (TokenReport.ofText shortTags name f.text).diagnostics = [] ∧
      (ImportReport.ofText shortTags name f.text).diagnostics.map (·.erase) =
        f.declarations.flatMap (·.warnings) := by
  let lexing := f.text.unifyLineEndings.lex shortTags
  let imports := FileImports.ofPieces (skipOpening lexing.pieces)
  have hreport : ImportReport.ofText shortTags name f.text =
      ⟨⟨name, f.text.unifyLineEndings⟩, lexing.pieces, imports.table,
        lexing.diagnostics ++ imports.diagnostics⟩ := ImportReport.ofText_of_lt h shortTags name
  have hlexing : lexing.diagnostics = [] := f.diagnostics_lex shortTags
  have himports : imports.erase = FileImports.ofStatements (f.declarations.map (·.statement)) :=
    f.erase_imports shortTags
  rw [hreport]
  refine ⟨?_, hlexing, ?_⟩
  · calc imports.table
      _ = imports.erase.table := rfl
      _ = (FileImports.ofStatements (f.declarations.map (·.statement))).table := by rw [himports]
      _ = f.table := table_foldl_overwrite f.declarations .empty
  · calc (lexing.diagnostics ++ imports.diagnostics).map (·.erase)
      _ = imports.erase.diagnostics := by
        rw [hlexing]
        rfl
      _ = (FileImports.ofStatements (f.declarations.map (·.statement))).diagnostics := by
        rw [himports]
      _ = f.declarations.flatMap (·.warnings) := by
        rw [FileImports.ofStatements, List.flatMap_map]
        simp only [Declaration.diagnostics_statement]

/-- One import of a group, with a comment in front of the brace. -/
theorem File.report_text_eq_group :
    let label (c : Char) (h : isLabelStart c = true) : Label := ⟨c, [], h, nofun⟩
    let name : Name := ⟨false, label 'B' rfl, [], fun _ _ => by decide⟩
    let imports : Imports := ⟨⟨[], none, name, none, []⟩, []⟩
    let group : Body := .group none ⟨true, label 'A' rfl, [], nofun⟩ []
      [.block ['x'] fun h => absurd h.length_le (by decide)] imports (some []) []
    let file : File := ⟨[], [⟨⟨"USE".toList, by decide⟩, ⟨.blank ' ' (Or.inl rfl), []⟩, group, []⟩]⟩
    let report := ImportReport.ofText false "a.php".toList file.text
    file.text = "<?php\nUSE \\A\\/*x*/\x7bB,\x7d;".toList ∧ file.text.size < UInt32.size ∧
      report.table.entries = [("B".toList, "\\A\\B".toList)] ∧ report.diagnostics = [] := by
  intro label name imports group file report
  have hsize : file.text.size < UInt32.size := by decide
  have hwarnings : file.declarations.flatMap (·.warnings) = [] := by decide
  obtain ⟨htable, -, hdiagnostics⟩ := file.report_text_eq hsize false "a.php".toList
  rw [hwarnings, List.map_eq_nil_iff] at hdiagnostics
  refine ⟨by decide, hsize, ?_, hdiagnostics⟩
  rw [htable]
  decide

end PhpImports.Printed

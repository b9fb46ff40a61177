import PhpImports.Proofs.Import.Gist
import PhpImports.Proofs.Lexeme.LineEnding
import PhpImports.Proofs.Lexeme.Placed

/-!
# Line endings may be unified before or after lexing

A text in which every CR has LF behind it is lexed as its unified form is: the tokens are the same
but for the line endings in them, the diagnostics say the same, and the file imports the same
(`lex_unifyLineEndings`). With a lone CR that does not hold, since neither a close tag nor a heredoc
takes one for a line ending.
-/

namespace PhpImports

open Text (WholeEndings unifyLineEndings)

variable {shortTags : Bool} {t : Text}

namespace Lexeme

theorem InRow.exists_stands {m : Mode} {ls : List Lexeme} {l : Lexeme} (h : InRow shortTags m ls)
    (hl : l ∈ ls) : ∃ (m' : Mode) (x : Text), m'.Stands shortTags l x := by
  obtain ⟨A, B, rfl⟩ := List.append_of_mem hl
  obtain ⟨m', hrow⟩ := h.of_append
  cases hrow with
  | cons hfirst _ => exact ⟨m', _, hfirst⟩

/-- Unifying line endings leaves what imports are read from. -/
theorem InRow.gists_unify {m : Mode} {ls : List Lexeme} (h : InRow shortTags m ls) :
    gists ((ls.map (·.unify)).drop 1) = gists (ls.drop 1) := by
  rw [← List.map_drop]
  refine gists_map (fun _ => rfl) ?_
  intro l hl hpart
  obtain ⟨m', x, hstands⟩ := h.exists_stands (List.mem_of_mem_drop hl)
  have hcr : '\r' ∉ l.text := by
    cases m' with
    | html => cases hstands <;> cases hpart
    | code afterAccess => exact Stands.notMem_cr hstands hpart
  rw [unify_of_notMem hcr]

theorem lexemes_unify (hw : WholeEndings t) :
    (unifyLineEndings t).lexemes shortTags = (t.lexemes shortTags).map (·.unify) := by
  have htexts := texts_lexemes shortTags t
  obtain ⟨hrow, hunified⟩ := (inRow_lexemes shortTags t).unify (by rwa [htexts])
  rw [htexts] at hunified
  exact readAll_eq_iff.2 ⟨hunified, hrow⟩

end Lexeme

/-- If every CR has LF behind it, then unifying line endings and lexing do not depend on their
order, and the file imports the same. -/
theorem lex_unifyLineEndings (hends : ∀ a b, t = a ++ '\r' :: b → b.head? = some '\n')
    (hsize : t.size < UInt32.size) :
    let u := t.unifyLineEndings
    let old := FileImports.ofTokens t (skipOpening (t.lex shortTags).tokens)
    let new := FileImports.ofTokens u (skipOpening (u.lex shortTags).tokens)
    (u.lex shortTags).labels u =
        ((t.lex shortTags).labels t).map (fun e => (e.1, unifyLineEndings e.2)) ∧
      (u.lex shortTags).diagnostics.map (fun d => (d.severity, d.code, d.message)) =
        (t.lex shortTags).diagnostics.map (fun d => (d.severity, d.code, d.message)) ∧
      new.table = old.table ∧ new.statementCount = old.statementCount := by
  intro u old new
  have hw : WholeEndings t := Text.wholeEndings_iff.2 hends
  have hlexemes : u.lexemes shortTags = (t.lexemes shortTags).map (·.unify) :=
    Lexeme.lexemes_unify hw
  have hsize' : u.size < UInt32.size := Nat.lt_of_le_of_lt (Text.size_unifyLineEndings_le t) hsize
  have herase : new.erase = old.erase := by
    rw [erase_ofTokens_lex hsize', erase_ofTokens_lex hsize, hlexemes,
      (Lexeme.inRow_lexemes shortTags t).gists_unify]
  refine ⟨?_, ?_, ?_, ?_⟩
  · rw [labels_lex hsize', labels_lex hsize, hlexemes, List.map_map, List.map_map]
    rfl
  · have hreport : ∀ (cause : Cause) (span : Span),
        ((cause.report span).severity, (cause.report span).code, (cause.report span).message) =
          (cause.severity, cause.code?, cause.message) := fun _ _ => rfl
    rw [map_diagnostics_lex hreport, map_diagnostics_lex hreport, hlexemes, List.filterMap_map]
    rfl
  · have htable := congrArg FileImports.table herase
    exact htable
  · have hcount := congrArg FileImports.statementCount herase
    exact hcount

/-- The line endings behind an open tag and in a heredoc, a string and a comment. -/
theorem lex_unifyLineEndings_crlf :
    let t : Text := "<?php\r\nuse A;'\\\r\n'/*\r\n*/<<<X\r\n X;".toList
    (∀ a b, t = a ++ '\r' :: b → b.head? = some '\n') ∧
      ((t.lex false).labels t).map (·.1) = [.openTag, .kwUse, .whitespace, .ident, .semicolon,
        .stringLiteral, .comment, .heredoc, .semicolon] ∧
      ((unifyLineEndings t).lex false).labels (unifyLineEndings t) =
        ((t.lex false).labels t).map (fun e => (e.1, unifyLineEndings e.2)) := by
  intro t
  have hwhole : WholeEndings t := by
    repeat (first | exact .nil | refine .crlf ?_ | refine .char (by decide) ?_)
  have hends := Text.wholeEndings_iff.1 hwhole
  exact ⟨hends, by decide +kernel, (lex_unifyLineEndings hends (by decide)).1⟩

end PhpImports

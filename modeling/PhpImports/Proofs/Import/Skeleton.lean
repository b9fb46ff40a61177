import PhpImports.Proofs.Import.Gist
import PhpImports.Proofs.Lexeme.Placed
import PhpImports.Proofs.Lexeme.Skeleton
import PhpImports.Proofs.Report.File
import PhpImports.Proofs.Report.LineEnding

/-!
# Imports do not depend on encodings

Texts with one skeleton are lexed into the same tokens, up to how runs of foreign characters are
encoded, and the diagnostics say the same. If no name has foreign characters, the texts import the
same (`lex_eq_of_skeleton`). So a file in an 8-bit encoding, read as if it were UTF-8, has the
imports that it should have (`AliasTable.ofFile_of_outline`), unless it holds a heredoc, where the
foreign characters of a label count.
-/

namespace PhpImports

open Cursor (IsAscii)

namespace Lexeme

/-- Skeletons keep what imports are read from, if no name part is foreign. -/
theorem gists_skeleton {ls : List Lexeme}
    (hascii : ∀ l ∈ ls, l.kind.isNamePart = true → IsAscii l.text) :
    gists (ls.map (·.skeleton)) = gists ls :=
  gists_map (fun _ => rfl) fun l hl hpart => Text.skeleton_of_ascii (hascii l hl hpart)

/-- Where the skeletons are the same, the names are ASCII on both sides or on none. -/
theorem isAscii_of_skeleton {ls ls' : List Lexeme}
    (hsame : ls.map (·.skeleton) = ls'.map (·.skeleton))
    (hascii : ∀ l ∈ ls, l.kind.isNamePart = true → IsAscii l.text) :
    ∀ l ∈ ls', l.kind.isNamePart = true → IsAscii l.text := by
  intro l' hl' hpart
  have hmem : l'.skeleton ∈ ls.map (·.skeleton) := by
    rw [hsame]
    exact List.mem_map_of_mem hl'
  obtain ⟨l, hl, hskeleton⟩ := List.mem_map.1 hmem
  have hkind : l.skeleton.kind = l'.skeleton.kind := congrArg (·.kind) hskeleton
  have htext : l.skeleton.text = l'.skeleton.text := congrArg (·.text) hskeleton
  have hlow : IsAscii l.text := hascii l hl ((congrArg TokenKind.isNamePart hkind).trans hpart)
  have hback : l'.text = l.text :=
    (Text.skeleton_eq_ascii_iff hlow).1 (htext.symm.trans (Text.skeleton_of_ascii hlow))
  rwa [hback]

end Lexeme

open Lexeme

variable {shortTags : Bool} {t u : Text}

/-- Heredocs left aside, texts with one skeleton have lexemes with the same skeletons. -/
theorem lexemes_of_skeleton (hsame : t.skeleton = u.skeleton) (hplain : ¬ "<<<".toList <:+: t) :
    (t.lexemes shortTags).map (·.skeleton) = (u.lexemes shortTags).map (·.skeleton) := by
  have hplain' : ¬ "<<<".toList <:+: u := by
    rwa [← Text.isInfix_skeleton_iff (by decide), ← hsame, Text.isInfix_skeleton_iff (by decide)]
  rw [← lexemes_skeleton hplain, ← lexemes_skeleton hplain', hsame]

/-- They import the same, up to places, if their names are ASCII. -/
theorem erase_of_skeleton (hsame : t.skeleton = u.skeleton) (hplain : ¬ "<<<".toList <:+: t)
    (hascii : ∀ l ∈ t.lexemes shortTags, l.kind.isNamePart = true → IsAscii l.text) :
    (FileImports.ofPieces (skipOpening (t.lex shortTags).pieces)).erase =
      (FileImports.ofPieces (skipOpening (u.lex shortTags).pieces)).erase := by
  have hlexemes : (t.lexemes shortTags).map (·.skeleton) =
      (u.lexemes shortTags).map (·.skeleton) := lexemes_of_skeleton hsame hplain
  have hascii' := isAscii_of_skeleton hlexemes hascii
  have hgists : gists ((t.lexemes shortTags).drop 1) = gists ((u.lexemes shortTags).drop 1) := by
    rw [← gists_skeleton fun l hl => hascii l (List.mem_of_mem_drop hl),
      ← gists_skeleton fun l hl => hascii' l (List.mem_of_mem_drop hl), List.map_drop,
      List.map_drop, hlexemes]
  rw [erase_ofPieces_lex, erase_ofPieces_lex, hgists]

/-- Texts that are the same but for the encoding of runs of foreign characters. -/
theorem lex_eq_of_skeleton (hsame : t.skeleton = u.skeleton)
    (hplain : ¬ "<<<".toList <:+: t) (ht : t.size < UInt32.size) (hu : u.size < UInt32.size) :
    ((t.lex shortTags).labels t).map (fun e => (e.1, e.2.skeleton)) =
        ((u.lex shortTags).labels u).map (fun e => (e.1, e.2.skeleton)) ∧
      (t.lex shortTags).diagnostics.map (fun d => (d.severity, d.code, d.message)) =
        (u.lex shortTags).diagnostics.map (fun d => (d.severity, d.code, d.message)) ∧
      ((∀ k ∈ (t.lex shortTags).tokens, k.kind.isNamePart = true → IsAscii (k.span.text t)) →
        (FileImports.ofTokens t (skipOpening (t.lex shortTags).tokens)).table =
          (FileImports.ofTokens u (skipOpening (u.lex shortTags).tokens)).table) := by
  have hlexemes : (t.lexemes shortTags).map (·.skeleton) =
      (u.lexemes shortTags).map (·.skeleton) := lexemes_of_skeleton hsame hplain
  refine ⟨?_, ?_, ?_⟩
  · have hlabels := congrArg (List.map fun l => (l.kind, l.text)) hlexemes
    rw [labels_lex ht, labels_lex hu, List.map_map, List.map_map]
    rwa [List.map_map, List.map_map] at hlabels
  · have hreport : ∀ (cause : Cause) (span : Span),
        ((cause.report span).severity, (cause.report span).code, (cause.report span).message) =
          (cause.severity, cause.code?, cause.message) := fun _ _ => rfl
    have hfaults := congrArg (List.filterMap (·.fault)) hlexemes
    rw [List.filterMap_map, List.filterMap_map] at hfaults
    rw [map_diagnostics_lex hreport, map_diagnostics_lex hreport]
    exact congrArg _ hfaults
  · intro hnames
    have hascii : ∀ l ∈ t.lexemes shortTags, l.kind.isNamePart = true → IsAscii l.text := by
      intro l hl hpart
      have hlabel : (l.kind, l.text) ∈ (t.lex shortTags).labels t := by
        rw [labels_lex ht]
        exact List.mem_map_of_mem hl
      obtain ⟨k, hk, heq⟩ := List.mem_map.1 hlabel
      obtain ⟨hkind, htext⟩ := Prod.mk.inj heq
      rw [← htext]
      exact hnames k hk (hkind ▸ hpart)
    rw [ofTokens_lex ht, ofTokens_lex hu]
    have htable := congrArg FileImports.table (erase_of_skeleton hsame hplain hascii)
    exact htable

/-- Two encodings of a comment, of a variable and of a string that nothing closes, with the import
between them. -/
theorem lex_eq_of_skeleton_latin :
    let t : Text := "<?php /* é */ use A as B; $ü='ß".toList
    let u : Text := "<?php /* Ã© */ use A as B; $Ã¼='Ã\u009F".toList
    t.skeleton = u.skeleton ∧ ¬ "<<<".toList <:+: t ∧ t.size < UInt32.size ∧ u.size < UInt32.size ∧
      t.size ≠ u.size ∧
      ((u.lex false).labels u).map (fun e => (e.1, e.2.skeleton)) =
        ((t.lex false).labels t).map (fun e => (e.1, e.2.skeleton)) ∧
      (u.lex false).tokens.map (·.kind) =
        [.openTag, .comment, .whitespace, .kwUse, .whitespace, .ident, .whitespace, .kwAs,
          .whitespace, .ident, .semicolon, .whitespace, .variable, .punct, .stringLiteral] ∧
      (u.lex false).diagnostics.map (fun d => (d.severity, d.code, d.message)) =
        [(.error, some "E0002".toList, "Unterminated string literal".toList)] ∧
      (FileImports.ofTokens u (skipOpening (u.lex false).tokens)).table.entries =
        [("B".toList, "\\A".toList)] := by
  intro t u
  have hsame : t.skeleton = u.skeleton := by decide +kernel
  have hplain : ¬ "<<<".toList <:+: t := by decide +kernel
  have ht : t.size < UInt32.size := by decide +kernel
  have hu : u.size < UInt32.size := by decide +kernel
  have hnames : ∀ k ∈ (t.lex false).tokens, k.kind.isNamePart = true →
      IsAscii (k.span.text t) := by decide +kernel
  obtain ⟨hlabels, hdiagnostics, htable⟩ := lex_eq_of_skeleton hsame hplain ht hu
  have hkinds := congrArg (List.map Prod.fst) hlabels
  rw [Lexing.labels, Lexing.labels] at hkinds
  simp only [List.map_map, Function.comp_def] at hkinds
  rw [← htable hnames, ← hdiagnostics, ← hlabels, ← hkinds]
  exact ⟨hsame, hplain, ht, hu, by decide +kernel, rfl, by decide +kernel, by decide +kernel,
    by decide +kernel⟩

/-- Files that are the same but for the encoding of runs of bytes beyond ASCII import the same. -/
theorem AliasTable.ofFile_of_outline {fs : FileSystem} {path path' : Text}
    {bytes bytes' : List UInt8} (hfile : fs path = .file bytes) (hfile' : fs path' = .file bytes')
    (hsize : (Text.decode bytes).size < UInt32.size)
    (hsize' : (Text.decode bytes').size < UInt32.size)
    (hsame : Text.outline bytes = Text.outline bytes')
    (hplain : ¬ "<<<".toList <:+: (Text.decode bytes).unifyLineEndings)
    (hascii : ∀ l ∈ (Text.decode bytes).unifyLineEndings.lexemes shortTags,
      l.kind.isNamePart = true → IsAscii l.text) :
    ∃ table, AliasTable.ofFile shortTags fs path = .ok table ∧
      AliasTable.ofFile shortTags fs path' = .ok table := by
  have hskeleton : (Text.decode bytes).unifyLineEndings.skeleton =
      (Text.decode bytes').unifyLineEndings.skeleton := by
    rw [Text.skeleton_unifyLineEndings, Text.skeleton_unifyLineEndings, Text.skeleton_decode,
      Text.skeleton_decode, hsame]
  have htable : (ImportReport.ofText shortTags path (Text.decode bytes)).table =
      (ImportReport.ofText shortTags path' (Text.decode bytes')).table := by
    have herase := congrArg FileImports.table (erase_of_skeleton hskeleton hplain hascii)
    rw [ImportReport.ofText_of_lt hsize, ImportReport.ofText_of_lt hsize']
    exact herase
  refine ⟨_, ofFile_of_file shortTags hfile, ?_⟩
  rw [ofFile_of_file shortTags hfile', htable]

/-- A file in Latin-1. -/
example :
    let ascii (s : String) : List UInt8 := s.toList.map fun c => c.toNat.toUInt8
    let bytes := ascii "<?php\n// caf" ++ [0xE9] ++ ascii "\nuse Foo\\Bar;\n"
    (AliasTable.ofFile false (fun _ => .file bytes) "latin1.php".toList).toOption.map (·.entries) =
      some [("Bar".toList, "\\Foo\\Bar".toList)] := by
  decide +kernel

end PhpImports

import PhpImports.Proofs.Import.Entry
import PhpImports.Proofs.Import.Path
import PhpImports.Proofs.Lexeme.NamePart
import PhpImports.Report

/-!
# The characters of aliases and names

A draft puts its names together from the texts of name parts and the separator at the root. So the
aliases and the names of a file consist of label characters and separators
(`ofNameChars_of_mem_entries`). No blank is one of them and no line feed.
-/

namespace PhpImports

/-- Label characters and separators only. -/
def Text.OfNameChars (s : Text) : Prop :=
  ∀ c ∈ s, isNameChar c = true

namespace Text.OfNameChars

variable {s t : Text}

theorem nil : OfNameChars [] :=
  List.forall_mem_nil _

theorem of_subset (h : t.OfNameChars) (hsub : s ⊆ t) : s.OfNameChars :=
  fun c hc => h c (hsub hc)

theorem append (hs : s.OfNameChars) (ht : t.OfNameChars) : (s ++ t).OfNameChars :=
  List.forall_mem_append.2 ⟨hs, ht⟩

theorem appendSegment (hs : s.OfNameChars) (ht : t.OfNameChars) :
    (s.appendSegment t).OfNameChars := by
  rw [Text.appendSegment]
  split
  · exact hs.append (ht.of_subset (List.dropWhile_subset _))
  · exact hs.append ht

theorem notMem (h : s.OfNameChars) {c : Char} (hc : isNameChar c = false) : c ∉ s :=
  fun hmem => Bool.false_ne_true (hc.symm.trans (h c hmem))

end Text.OfNameChars

/-- The name and the alias of an import consist of name characters. -/
structure ImportClause.OfNameChars (i : ImportClause) : Prop where
  name : i.name.OfNameChars
  asName : ∀ a, i.asName = some a → a.OfNameChars

theorem ImportClause.OfNameChars.localName {i : ImportClause} (h : i.OfNameChars) :
    i.localName.OfNameChars := by
  rw [ImportClause.localName]
  cases ha : i.asName with
  | some a => exact h.asName a ha
  | none =>
    refine h.name.of_subset fun c hc => ?_
    exact List.mem_reverse.1 (List.takeWhile_subset _ (List.mem_reverse.1 hc))

/-- Everything that a draft has read does. -/
structure Draft.OfNameChars (d : Draft) : Prop where
  groupPath : d.groupPath.OfNameChars
  name : d.name.OfNameChars
  asName : ∀ a, d.asName = some a → a.OfNameChars
  imports : ∀ i ∈ d.imports, i.OfNameChars

namespace Draft

theorem ofNameChars_default : ({} : Draft).OfNameChars where
  groupPath := List.forall_mem_singleton.2 rfl
  name := .nil
  asName := nofun
  imports := List.forall_mem_nil _

namespace OfNameChars

variable {d : Draft}

theorem extend (h : d.OfNameChars) {p : Piece} (hp : p.text.OfNameChars) :
    (d.extend p).OfNameChars := by
  rw [Draft.extend]
  cases hread : d.asName with
  | none => exact ⟨h.groupPath, h.name.append hp, nofun, h.imports⟩
  | some read =>
    refine ⟨h.groupPath, h.name, ?_, h.imports⟩
    rintro a ⟨⟩
    exact (h.asName read hread).append hp

theorem announceAlias (h : d.OfNameChars) : d.announceAlias.OfNameChars := by
  refine ⟨h.groupPath, h.name, ?_, h.imports⟩
  rintro a ⟨⟩
  cases hread : d.asName with
  | none => exact .nil
  | some read => exact h.asName read hread

theorem closeImport (h : d.OfNameChars) : d.closeImport.OfNameChars := by
  have hnone : ∀ a, (none : Option Text) = some a → a.OfNameChars := nofun
  rw [Draft.closeImport]
  split
  · exact ⟨h.groupPath, .nil, hnone, h.imports⟩
  · refine ⟨h.groupPath, .nil, hnone, ?_⟩
    refine List.forall_mem_append.2 ⟨h.imports, List.forall_mem_singleton.2 ?_⟩
    exact ⟨h.groupPath.appendSegment h.name, h.asName⟩

theorem openGroup (h : d.OfNameChars) (brace : Span) : (d.openGroup brace).OfNameChars :=
  ⟨h.groupPath.appendSegment h.name, .nil, h.asName, h.imports⟩

theorem next (h : d.OfNameChars) {p : Piece}
    (hp : p.kind.isNamePart = true → p.text.OfNameChars) : (d.next p).OfNameChars := by
  rw [Draft.next]
  split
  · next hpart => exact h.extend (hp hpart)
  · split
    · exact h.announceAlias
    · exact h.closeImport
    · exact h.closeImport
    · exact h.openGroup p.span
    · exact h

end OfNameChars

theorem ofNameChars_readAll {ps : List Piece}
    (hps : ∀ p ∈ ps, p.kind.isNamePart = true → p.text.OfNameChars) :
    (({} : Draft).readAll ps).1.OfNameChars :=
  readAll_induction (fun _ p hp hd => hd.next (hps p hp)) {} ofNameChars_default

end Draft

theorem ofNameChars_of_mem_importClauses {ps : List Piece}
    (hps : ∀ p ∈ ps, p.kind.isNamePart = true → p.text.OfNameChars) :
    ∀ i ∈ importClauses ps, i.OfNameChars := by
  induction ps with
  | nil => exact List.forall_mem_nil _
  | cons p ps ih =>
    have hrest := (List.forall_mem_cons.1 hps).2
    rw [importClauses]
    split
    · exact List.forall_mem_append.2 ⟨(Draft.ofNameChars_readAll hrest).imports, ih hrest⟩
    · exact ih hrest

/-- Aliases and names of a source consist of the characters that names are made of. -/
theorem ofNameChars_of_mem_entries {shortTags : Bool} {source : Source} {e : Text × Text}
    (hsize : source.text.size < UInt32.size)
    (he : e ∈ (ImportReport.ofSource shortTags source).table.entries) :
    e.1.OfNameChars ∧ e.2.OfNameChars := by
  rw [ImportReport.ofSource_of_lt hsize] at he
  obtain ⟨i, hi, rfl⟩ := mem_entries_ofPieces.1 he
  have hclause := ofNameChars_of_mem_importClauses (fun p hp hpart =>
    (isNamePart_of_mem_lex (List.mem_of_mem_drop hp) hpart).chars) i hi.mem
  exact ⟨hclause.localName, hclause.name⟩

end PhpImports

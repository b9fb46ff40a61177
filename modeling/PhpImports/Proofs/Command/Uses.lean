import PhpImports.Proofs.Command.Outcome
import PhpImports.Proofs.Import.Character
import PhpImports.Proofs.Json
import PhpImports.Proofs.Lexeme.Outside
import PhpImports.Proofs.Text.Order

/-!
# Printed imports

The imports of a file are printed as lines without any quoting, or as one value. Both forms give
back all of the alias table: no alias and no name has a blank or a line feed in it, so the first
arrow of a line ends its alias (`splitFirst?_append`), and no two values are printed alike. What is
printed of a diagnostic names the places that are shown of it (`Source.Tells`). Behind 2 ^ 32 bytes
of text a name is read where its offsets wrap around to, and that can be a blank
(`not_uses_give_back_imports`).
-/

namespace PhpImports

namespace Text

/-- What stands before and behind the first occurrence of the pattern, if there is one. -/
def splitFirst? (pattern s : Text) : Option (Text × Text) :=
  let (before, rest) := breakAt (·.startsWith pattern) s
  if rest = [] then none else some (before, rest.drop pattern.length)

theorem splitFirst?_append {k : Char} {ks a : Text} (hk : k ∉ a) (b : Text) :
    splitFirst? (k :: ks) (a ++ (k :: ks ++ b)) = some (a, b) := by
  have hbreak : breakAt (·.startsWith (k :: ks)) (a ++ (k :: ks ++ b)) = (a, k :: ks ++ b) := by
    refine breakAt_eq (Or.inr (startsWith_iff.2 ⟨b, rfl⟩)) fun x c y ha => ?_
    have hne : c ≠ k := fun h => hk (by rw [ha, h]; simp)
    simp [hne]
  rw [splitFirst?, hbreak]
  simp

theorem lines_endLines {ls : List Text} (h : ∀ l ∈ ls, '\n' ∉ l) :
    (endLines ls).lines = ls ++ [[]] := by
  induction ls with
  | nil => rfl
  | cons l ls ih =>
    obtain ⟨hl, hls⟩ := List.forall_mem_cons.1 h
    have hsplit : endLines (l :: ls) = l ++ '\n' :: endLines ls := by
      rw [endLines, List.flatMap_cons, List.append_assoc]
      rfl
    rw [hsplit, lines_append_lf, lines_of_notMem hl, ih hls]
    rfl

end Text

namespace AliasTable

variable (t : AliasTable)

theorem sorted_perm : t.sorted.Perm t.entries :=
  List.mergeSort_perm _ _

theorem nodup_sorted : (t.sorted.map (·.1)).Nodup :=
  (t.sorted_perm.map (·.1)).nodup_iff.2 t.nodup_aliases

theorem pairwise_sorted : t.sorted.Pairwise fun e f => e.1.Precedes f.1 := by
  have hle : t.sorted.Pairwise fun e f => e.1.le f.1 = true := by
    refine List.pairwise_mergeSort ?_ ?_ _
    · exact fun _ _ _ => Text.le_trans
    · exact fun e f => e.1.le_total f.1
  have hne : t.sorted.Pairwise fun e f => e.1 ≠ f.1 := List.pairwise_map.1 t.nodup_sorted
  exact hle.imp₂ (fun _ _ => Text.precedes_of_le) hne

variable {t : AliasTable}

theorem lf_notMem_lines (h : ∀ e ∈ t.entries, '\n' ∉ e.1 ∧ '\n' ∉ e.2) :
    ∀ l ∈ t.lines, '\n' ∉ l := by
  have harrow : '\n' ∉ " => ".toList := by decide
  refine List.forall_mem_map.2 fun e he => ?_
  obtain ⟨halias, hname⟩ := h e (t.sorted_perm.mem_iff.1 he)
  simp only [List.mem_append, not_or]
  exact ⟨⟨halias, harrow⟩, hname⟩

theorem map_splitFirst?_lines (h : ∀ e ∈ t.entries, ' ' ∉ e.1) :
    t.lines.map (Text.splitFirst? " => ".toList) = t.sorted.map some := by
  rw [lines, List.map_map]
  refine List.map_congr_left fun e he => ?_
  rw [Function.comp_apply, List.append_assoc]
  exact Text.splitFirst?_append (h e (t.sorted_perm.mem_iff.1 he)) e.2

end AliasTable

/-- The value of a field of an object. -/
def Json.field? (key : Text) : Json → Option Json
  | .obj fields => fields.lookup key
  | _ => none

namespace Source

/-- The line and the column that are printed of a span make up the place that is shown. -/
inductive TellsPlace (source : Source) (span : Json) : Text → Prop
  | intro {line column : Nat} (line_eq : span.field? "line".toList = some (.num line))
      (column_eq : span.field? "column".toList = some (.num column)) :
    TellsPlace source span (source.name ++ ':' :: Text.ofNat line ++ ':' :: Text.ofNat column)

/-- An item says what the diagnostic says that is rendered to these lines. The places it names are
those of the lines: the one of the span is in the headline, and the one of a note in the last of its
three lines. -/
structure Tells (source : Source) (d : Diagnostic) (ls : List Text) (item : Json) : Prop where
  rendered : d.notice.renderLines source = .ok ls
  severity : item.field? "severity".toList = some (.str d.severity.name)
  code : item.field? "code".toList = some (.ofOption .str d.code)
  message : item.field? "message".toList = some (.str d.message)
  noSpan : d.span = none → item.field? "span".toList = some .null
  span : ∀ span, d.span = some span → ∃ told place, item.field? "span".toList = some told ∧
    source.TellsPlace told place ∧ ls[0]? = some (d.notice.headlineAt place)
  labels : ∃ labels, item.field? "labels".toList = some (.arr labels) ∧
    labels.length = d.notes.length ∧
    ∀ k note, d.notes[k]? = some note → ∃ label told place caret, labels[k]? = some label ∧
      label.field? "message".toList = some (.str note.message) ∧
      label.field? "span".toList = some told ∧ source.TellsPlace told place ∧
      ls[1 + d.notice.placeCount + 3 * k + 2]? = some (caret ++ "  (".toList ++ place ++ ")".toList)

variable {source : Source} {d : Diagnostic} {item : Json}

theorem tellsPlace {span : Span} {told : Json} {place : Text}
    (htold : source.spanJson span = .ok told) (hplace : source.place span.start = .ok place) :
    source.TellsPlace told place := by
  obtain ⟨found, hfound, htold⟩ := bind_eq_ok_iff.1 htold
  obtain ⟨found', hfound', hplace⟩ := bind_eq_ok_iff.1 hplace
  obtain rfl := Except.ok.inj (hfound.symm.trans hfound')
  obtain rfl := Except.ok.inj htold
  obtain rfl := Except.ok.inj hplace
  exact .intro rfl rfl

/-- The parts that an item is put together from. -/
theorem diagnosticJson_parts (h : source.diagnosticJson d = .ok item) :
    ∃ labels span, List.Forall₂ (fun note v => source.noteJson note = .ok v) d.notes labels ∧
      source.spanJson? d.span = .ok span ∧
      item = .obj [("code".toList, .ofOption .str d.code), ("file".toList, .str source.name),
        ("help".toList, .ofOption .str d.help), ("labels".toList, .arr labels),
        ("message".toList, .str d.message), ("severity".toList, .str d.severity.name),
        ("span".toList, span)] := by
  obtain ⟨labels, hlabels, h⟩ := bind_eq_ok_iff.1 h
  obtain ⟨span, hspan, h⟩ := bind_eq_ok_iff.1 h
  exact ⟨labels, span, mapM_eq_ok_iff.1 hlabels, hspan, (Except.ok.inj h).symm⟩

theorem noteJson_parts {note : Note} {label : Json} (h : source.noteJson note = .ok label) :
    ∃ told, source.spanJson note.span = .ok told ∧
      label = .obj [("message".toList, .str note.message), ("span".toList, told)] := by
  obtain ⟨told, htold, h⟩ := bind_eq_ok_iff.1 h
  exact ⟨told, htold, (Except.ok.inj h).symm⟩

/-- The item that is printed of a diagnostic tells it. -/
theorem exists_tells (hsize : source.text.size < UInt32.size)
    (h : source.diagnosticJson d = .ok item) : ∃ ls, source.Tells d ls item := by
  obtain ⟨labels, told, hlabels, htold, rfl⟩ := diagnosticJson_parts h
  obtain ⟨place, spanLines, notes, hrendered⟩ := d.notice.exists_rendered hsize
  refine ⟨_, hrendered.renderLines_eq, rfl, rfl, rfl, fun hnone => ?_, fun span hsome => ?_, labels,
    rfl, hlabels.length_eq.symm, fun k note hnote => ?_⟩
  · rw [hnone] at htold
    obtain rfl := Except.ok.inj htold
    rfl
  · have hplaced := hrendered.placed
    have hspan : d.notice.span = some span := hsome
    rw [Notice.placeText, hspan] at hplaced
    rw [hsome] at htold
    exact ⟨told, place, rfl, tellsPlace htold hplaced, rfl⟩
  · obtain ⟨label, hlabel, hjson⟩ := exists_of_getElem?_forall₂ hlabels hnote
    obtain ⟨told', htold', rfl⟩ := noteJson_parts hjson
    obtain ⟨ls, hls, hnote'⟩ := exists_of_getElem?_forall₂ hrendered.notes hnote
    obtain @⟨line, caret, place', -, hplaced⟩ := hnote'
    exact ⟨_, told', place', caret, hlabel, rfl, rfl, tellsPlace htold' hplaced,
      hrendered.getElem?_lines hls (by decide)⟩

end Source

section Printed

variable {f : Flags} {r : ImportReport} {clock : Clock}

theorem Flags.stdout_printUses_of_plain (hsize : r.source.text.size < UInt32.size)
    (hplain : f.json = false) :
    (f.printUses clock r).stdout = Text.endLines r.table.lines := by
  obtain ⟨texts, htexts⟩ := exists_forall₂ (l := if f.noDiags then [] else r.diagnostics)
    fun d _ => Diagnostic.exists_rendered hsize d
  rw [f.printUses_of_plain clock r hplain, Source.printDiagnostics_plain htexts]
  simp [Outcome.andThen, Outcome.faultCode]

/-- The value that is printed of a report. -/
theorem Flags.exists_stdout_printUses (clock : Clock) (hsize : r.source.text.size < UInt32.size)
    (hjson : f.json = true) :
    ∃ (v : Json) (items : List Json), (f.printUses clock r).stdout = v.compact ++ ['\n'] ∧
      v.field? "uses".toList = some r.table.json ∧
      v.field? "diagnostics".toList = some (.arr items) ∧
      List.Forall₂ (fun d v => r.source.diagnosticJson d = .ok v)
        (if f.noDiags then [] else r.diagnostics) items := by
  obtain ⟨items, hitems, hvalue⟩ := ImportReport.exists_json (!f.noDiags) f.timing hsize
  refine ⟨.obj ([("diagnostics".toList, .arr items), ("file".toList, .str r.source.name)] ++
    (if f.timing then [("timing".toList, clock.json)] else []) ++
    [("uses".toList, r.table.json)]), items, ?_, ?_, ?_, ?_⟩
  · rw [f.printUses_of_json clock r hjson, hvalue clock]
    exact List.append_nil _
  · cases f.timing <;> rfl
  · cases f.timing <;> rfl
  · cases hnone : f.noDiags <;> simpa [hnone] using hitems

end Printed

/-- A file that is named like no flag and no option can be asked for with any flags. Whatever is
printed of the imports of a file that can be read and is not too long gives back its whole alias
table, in the order of the bytes of the aliases: line by line, each cut at its first arrow, or as
the one value that is printed so. The value also tells all diagnostics unless they are not
wanted. -/
theorem uses_give_back_imports (fs : FileSystem) {path : Text} {bytes : List UInt8}
    (h : fs path = .file bytes)
    (hsize : (Text.decode bytes).unifyLineEndings.size < UInt32.size) (shortTags : Bool) :
    (path ∉ Flags.words → ¬ "--".toList <+: path → ∀ ws ⊆ Flags.words,
      Accepted fs ("uses".toList :: (ws ++ [path])) ⟨.uses, .ofWords ws, path⟩ bytes) ∧
    ∃ report, ImportReport.ofFile shortTags fs path = .ok report ∧
      (∀ e ∈ report.table.entries, ∀ c ∈ ['\n', ' '], c ∉ e.1 ∧ c ∉ e.2) ∧
      ∃ es : List (Text × Text), es.Perm report.table.entries ∧ (es.map (·.1)).Nodup ∧
        es.Pairwise (fun e f => e.1.Precedes f.1) ∧
        ∀ args flags clock, Accepted fs args ⟨.uses, flags, path⟩ bytes →
          flags.shortTags = shortTags →
          (flags.json = false → ∃ ls, (run fs args clock).stdout.lines = ls ++ [[]] ∧
            ls.map (Text.splitFirst? " => ".toList) = es.map some) ∧
          (flags.json = true → ∃ v, '\n' ∉ v.compact ∧
            (∀ w : Json, (run fs args clock).stdout = w.compact ++ ['\n'] ↔ w = v) ∧
            v.field? "uses".toList = some (.obj (es.map fun e => (e.1, .str e.2))) ∧
            ∃ items, v.field? "diagnostics".toList = some (.arr items) ∧
              (flags.noDiags = true → items = []) ∧
              (flags.noDiags = false →
                List.Forall₂ (fun d item => ∃ ls, report.source.Tells d ls item)
                  report.diagnostics items)) := by
  let report := ImportReport.ofSource shortTags (.ofText path (Text.decode bytes))
  have hread : ImportReport.ofFile shortTags fs path = .ok report := by
    rw [ImportReport.ofFile, Source.read, h]
    rfl
  have hchars : ∀ e ∈ report.table.entries, ∀ c ∈ ['\n', ' '], c ∉ e.1 ∧ c ∉ e.2 := by
    intro e he c hc
    obtain ⟨halias, hname⟩ := ofNameChars_of_mem_entries hsize he
    have hnot : ∀ c ∈ ['\n', ' '], isNameChar c = false := by decide
    exact ⟨halias.notMem (hnot c hc), hname.notMem (hnot c hc)⟩
  refine ⟨fun hflag hdashes ws hws => accepted_of_path .uses hflag hdashes hws h, report, hread,
    hchars, report.table.sorted, report.table.sorted_perm,
    report.table.nodup_sorted, report.table.pairwise_sorted, ?_⟩
  intro args flags clock haccepted hshort
  have hrun : run fs args clock = flags.printUses clock report := by
    rw [haccepted.run_eq, Invocation.report, hshort]
  rw [hrun]
  constructor
  · intro hplain
    have hlines : ∀ l ∈ report.table.lines, '\n' ∉ l :=
      AliasTable.lf_notMem_lines fun e he => hchars e he '\n' (by decide)
    refine ⟨report.table.lines, ?_, ?_⟩
    · rw [Flags.stdout_printUses_of_plain hsize hplain, Text.lines_endLines hlines]
    · exact AliasTable.map_splitFirst?_lines fun e he => (hchars e he ' ' (by decide)).1
  · intro hjson
    obtain ⟨v, items, hstdout, huses, hdiagnostics, hitems⟩ :=
      Flags.exists_stdout_printUses (r := report) clock hsize hjson
    rw [hstdout]
    refine ⟨v, Json.lf_notMem_compact v, fun w => ⟨fun hw => ?_, fun hw => by rw [hw]⟩, huses,
      items, hdiagnostics, fun hnone => ?_, fun hall => ?_⟩
    · exact (Json.compact_injective (List.append_cancel_right hw)).symm
    · rw [hnone] at hitems
      cases hitems
      rfl
    · rw [hall] at hitems
      exact hitems.imp fun d item hitem => Source.exists_tells hsize hitem

/-- Two imports, the later alias first in the file. -/
theorem uses_give_back_imports_two :
    let path := "a.php".toList
    let bytes := [60, 63, 112, 104, 112, 32, 117, 115, 101, 32, 67, 44, 68, 32, 97, 115, 32, 66, 59]
    let fs : FileSystem := fun p => if p = path then .file bytes else .directory
    fs path = .file bytes ∧ (Text.decode bytes).unifyLineEndings.size < UInt32.size ∧
      ∃ es : List (Text × Text), es.Perm [("C".toList, "\\C".toList), ("B".toList, "\\D".toList)] ∧
        (∃ ls, (run fs ["uses".toList, path]).stdout.lines = ls ++ [[]] ∧
          ls.map (Text.splitFirst? " => ".toList) = es.map some) ∧
        ∃ v : Json, (run fs ["uses".toList, "json".toList, path]).stdout = v.compact ++ ['\n'] ∧
          v.field? "uses".toList = some (.obj (es.map fun e => (e.1, .str e.2))) := by
  intro path bytes fs
  have hfound : fs path = .file bytes := rfl
  have hsize : (Text.decode bytes).unifyLineEndings.size < UInt32.size := by decide
  obtain ⟨haccepts, report, hread, -, es, hperm, -, -, hruns⟩ :=
    uses_give_back_imports fs hfound hsize false
  have hentries : (ImportReport.ofFile false fs path).toOption.map (·.table.entries) =
      some [("C".toList, "\\C".toList), ("B".toList, "\\D".toList)] := by decide +kernel
  rw [hread] at hentries
  have hplain := haccepts (by decide) (by decide) [] (by simp)
  have hjson := haccepts (by decide) (by decide) ["json".toList] (by decide)
  obtain ⟨v, -, hv, huses, -⟩ := (hruns _ _ .masked hjson rfl).2 rfl
  exact ⟨hfound, hsize, es, Option.some.inj hentries ▸ hperm, (hruns _ _ .masked hplain rfl).1 rfl,
    v, (hv v).2 rfl, huses⟩

section Wrapped

variable (name : Text) {blanks r : Text} (hfirst : blanks = "             ".toList ++ r)
  (hblank : ∀ c ∈ blanks, c = ' ') (hsize : blanks.size = 4294967296)

include hfirst hblank hsize

/-- The tokens of one import behind 2 ^ 32 blanks. -/
theorem Text.tokens_lex_wrapped :
    (Text.lex false (blanks ++ "<?php use A;".toList)).tokens =
      [⟨.inlineHtml, ⟨0, 0⟩⟩, ⟨.openTag, ⟨0, 6⟩⟩, ⟨.kwUse, ⟨6, 9⟩⟩, ⟨.whitespace, ⟨9, 10⟩⟩,
        ⟨.ident, ⟨10, 11⟩⟩, ⟨.semicolon, ⟨11, 12⟩⟩] := by
  have hne : blanks ≠ [] := by
    rw [hfirst]
    exact List.cons_ne_nil _ _
  have hfree : Lexeme.TagFree false blanks [] := by
    intro a c b hsplit
    obtain rfl : c = ' ' := hblank c (by rw [hsplit]; simp)
    rfl
  have hlexemes := Lexeme.lexemes_append_of_tagFree (t := "<?php use A;".toList) hfree rfl hne
  have hcode : Text.lexemes false "<?php use A;".toList =
      [{ kind := .openTag, text := "<?php ".toList }, { kind := .kwUse, text := "use".toList },
        { kind := .whitespace, text := " ".toList }, { kind := .ident, text := "A".toList },
        { kind := .semicolon, text := ";".toList }] := by decide +kernel
  rw [Lexing.tokens, Text.lex, hlexemes, hcode]
  simp only [Lexeme.place, hsize]
  rfl

/-- Their offsets are those of blanks, so a blank is imported. -/
theorem ImportReport.entries_of_wrapped :
    (ofSource false ⟨name, blanks ++ "<?php use A;".toList⟩).table.entries =
      [(" ".toList, "\\ ".toList)] := by
  have hread : FileImports.ofTokens (blanks ++ "<?php use A;".toList)
      (skipOpening (Text.lex false (blanks ++ "<?php use A;".toList)).tokens) =
      FileImports.ofPieces [⟨.openTag, ⟨0, 6⟩, "      ".toList⟩, ⟨.kwUse, ⟨6, 9⟩, "   ".toList⟩,
        ⟨.whitespace, ⟨9, 10⟩, " ".toList⟩, ⟨.ident, ⟨10, 11⟩, " ".toList⟩,
        ⟨.semicolon, ⟨11, 12⟩, " ".toList⟩] := by
    rw [Text.tokens_lex_wrapped hfirst hblank hsize, hfirst]
    rfl
  rw [ofSource_eq]
  simp only [hread]
  decide +kernel

end Wrapped

/-- So many blanks have others behind the first ones. -/
theorem Text.blanks_wrapped :
    List.replicate 4294967296 ' ' = "             ".toList ++ List.replicate 4294967283 ' ' ∧
      size (List.replicate 4294967296 ' ') = 4294967296 := by
  have hthirteen : "             ".toList = List.replicate 13 ' ' := rfl
  exact ⟨by rw [hthirteen, List.replicate_append_replicate], size_replicate _ (by decide)⟩

theorem Source.read_wrapped {fs : FileSystem} {path : Text} (h : fs path =
    .file (Text.bytes (List.replicate 4294967296 ' ' ++ "<?php use A;".toList))) :
    read fs path = .ok ⟨path, List.replicate 4294967296 ' ' ++ "<?php use A;".toList⟩ := by
  have hcr : '\r' ∉ List.replicate 4294967296 ' ' ++ "<?php use A;".toList := by
    rw [List.mem_append, not_or]
    exact ⟨fun h => absurd (List.eq_of_mem_replicate h) (by decide), by decide⟩
  simp only [read, h, ofFound, ofText, Text.unifyLineEndings_decode_bytes hcr]

/-- A file that is named like a flag, and one import behind 2 ^ 32 blanks. -/
theorem not_uses_give_back_imports :
    (let fs : FileSystem := fun _ => .file (Text.bytes "<?php use A;".toList)
     let report := ImportReport.ofFile false fs "json".toList
     report.toOption.map (·.table.entries) = some [("A".toList, "\\A".toList)] ∧
      (run fs ["uses".toList, "json".toList]).stdout = []) ∧
    let fs : FileSystem := fun _ =>
      .file (Text.bytes (List.replicate 4294967296 ' ' ++ "<?php use A;".toList))
    ∃ report, ImportReport.ofFile false fs "a.php".toList = .ok report ∧
      ∃ e ∈ report.table.entries, ' ' ∈ e.1 := by
  refine ⟨by decide +kernel, ?_⟩
  intro fs
  obtain ⟨hfirst, hsize⟩ := Text.blanks_wrapped
  have hread : Source.read fs "a.php".toList = .ok ⟨"a.php".toList, _⟩ := Source.read_wrapped rfl
  have hentries := ImportReport.entries_of_wrapped "a.php".toList hfirst
    (fun _ => List.eq_of_mem_replicate) hsize
  refine ⟨_, by rw [ImportReport.ofFile, hread]; rfl, (" ".toList, "\\ ".toList), ?_, by decide⟩
  rw [hentries]
  exact List.mem_singleton_self _

end PhpImports

import PhpImports.Proofs.Command.Uses
import PhpImports.Proofs.Cursor.Lexing
import PhpImports.Proofs.Lexeme.Placed
import PhpImports.Proofs.Report.File

/-!
# Printed tokens

The tokens of a file are printed as lines of three fields with tabs between, or as one value for
each. Whatever a token stands for, no line feed, tab or carriage return is printed of it
(`Text.notMem_visible`), so a line falls apart into the fields it was put together from, and kind
and span can be read back from it (`Token.ofLine?_line`). A value gives back all of its token. As
the tokens cover a text of fewer than 2 ^ 32 bytes, so do those that are read back
(`TokenReport.coversText`).
-/

namespace PhpImports

namespace Text

/-- What stands between the tabs of a line. -/
def fields (l : Text) : List Text :=
  l.splitOn '\t'

variable {s : Text} {c : Char}

theorem fields_append_tab (h : '\t' ∉ s) (t : Text) : fields (s ++ '\t' :: t) = s :: t.fields := by
  rw [fields, List.splitOn_append_cons_self, List.splitOn_eq_singleton h]
  rfl

theorem fields_of_notMem (h : '\t' ∉ s) : s.fields = [s] :=
  List.splitOn_eq_singleton h

/-- The characters that would end a field or a line are printed as others. -/
theorem notMem_visible (hc : c ∈ ['\n', '\t', '\r']) (s : Text) : c ∉ s.visible := by
  intro hmem
  obtain ⟨d, -, hprinted⟩ := List.mem_flatMap.1 hmem
  have hmarks : ∀ c ∈ ['\n', '\t', '\r'], c ≠ '\\' ∧ c ≠ 'n' ∧ c ≠ 't' ∧ c ≠ 'r' := by decide
  have hne := hmarks c hc
  split_ifs at hprinted with hlf htab hcr
  · simp [hne] at hprinted
  · simp [hne] at hprinted
  · simp [hne] at hprinted
  · obtain rfl : c = d := by simpa using hprinted
    simp [hlf, htab, hcr] at hc

end Text

theorem TokenKind.notMem_name {c : Char} (hc : c ∈ ['\n', '\t']) (k : TokenKind) : c ∉ k.name := by
  have hnames : ∀ c ∈ ['\n', '\t'], c ∉ k.name := by cases k <;> decide
  exact hnames c hc

namespace Span

/-- The two offsets in decimals, with two dots between. -/
def printed (s : Span) : Text :=
  Text.ofNat s.start.toNat ++ "..".toList ++ Text.ofNat s.stop.toNat

def ofPrinted? (field : Text) : Option Span :=
  (Text.splitFirst? "..".toList field).map fun (start, stop) =>
    .ofNat start.digitsValue stop.digitsValue

theorem notMem_printed {c : Char} (hdigit : c.isDigit = false) (hdot : c ≠ '.') (s : Span) :
    c ∉ s.printed := by
  simp [printed, Text.notMem_ofNat hdigit, hdot]

theorem ofNat_toNat (s : Span) : ofNat s.start.toNat s.stop.toNat = s := by
  simp [ofNat]

theorem ofPrinted?_printed (s : Span) : ofPrinted? s.printed = some s := by
  have hsplit : Text.splitFirst? "..".toList s.printed =
      some (Text.ofNat s.start.toNat, Text.ofNat s.stop.toNat) := by
    rw [printed, List.append_assoc]
    exact Text.splitFirst?_append (Text.notMem_ofNat (by decide) _) _
  rw [ofPrinted?, hsplit, Option.map_some]
  simp only [Text.digitsValue_ofNat, ofNat_toNat]

end Span

/-- The kind and the span that a line tells, whatever its third field is. -/
def Token.ofLine? (l : Text) : Option Token :=
  match l.fields with
  | [kind, span, _] => do
    let kind ← TokenKind.ofName? kind
    let span ← Span.ofPrinted? span
    return ⟨kind, span⟩
  | _ => none

/-- The token that a value tells, with its characters. -/
def Piece.ofJson? (v : Json) : Option Piece :=
  match v.field? "kind".toList, v.field? "start".toList, v.field? "end".toList,
    v.field? "text".toList with
  | some (.str kind), some (.num start), some (.num stop), some (.str text) =>
    (TokenKind.ofName? kind).map fun kind => ⟨kind, .ofNat start stop, text⟩
  | _, _, _, _ => none

namespace Piece

variable (p : Piece)

theorem line_eq : p.line = p.kind.name ++ '\t' :: (p.span.printed ++ '\t' :: p.text.visible) := by
  simp [line, Span.printed]

theorem fields_line : p.line.fields = [p.kind.name, p.span.printed, p.text.visible] := by
  have hkind := p.kind.notMem_name (c := '\t') (by decide)
  have hspan := p.span.notMem_printed (c := '\t') rfl (by decide)
  have htext := Text.notMem_visible (c := '\t') (by decide) p.text
  rw [line_eq, Text.fields_append_tab hkind, Text.fields_append_tab hspan,
    Text.fields_of_notMem htext]

theorem lf_notMem_line : '\n' ∉ p.line := by
  have hkind := p.kind.notMem_name (c := '\n') (by decide)
  have hspan := p.span.notMem_printed (c := '\n') rfl (by decide)
  have htext := Text.notMem_visible (c := '\n') (by decide) p.text
  simp [line_eq, hkind, hspan, htext]

theorem ofJson?_json : ofJson? p.json = some p := by
  have hread : ofJson? p.json = (TokenKind.ofName? p.kind.name).map fun kind =>
      ⟨kind, .ofNat p.span.start.toNat p.span.stop.toNat, p.text⟩ := rfl
  rw [hread, TokenKind.ofName?_name, Option.map_some, Span.ofNat_toNat]

end Piece

theorem Token.ofLine?_line (p : Piece) : Token.ofLine? p.line = some p.token := by
  rw [ofLine?, p.fields_line]
  simp only [TokenKind.ofName?_name, Span.ofPrinted?_printed]
  rfl

namespace TokenReport

def tokens (r : TokenReport) : List Token :=
  r.pieces.map (·.token)

/-- The tokens are all of the text and tile it, and its characters at their spans are theirs. -/
structure CoversText (r : TokenReport) : Prop where
  texts : (r.pieces.map (·.text)).flatten = r.source.text
  tiles : Cursor.Tiles r.source.text 0 r.tokens
  inText : r.tokens.map (·.inText r.source.text) = r.pieces

/-- The tokens are those that were lexed, whatever is read at their spans. -/
theorem tokens_ofSource (shortTags : Bool) (source : Source) :
    (ofSource shortTags source).tokens = (source.text.lex shortTags).tokens := by
  have htoken : (fun t : Token => (t.inText source.text).token) = id := rfl
  simp only [tokens, ofSource_eq, List.map_map, Function.comp_def, htoken, List.map_id]

theorem coversText {source : Source} (hsize : source.text.size < UInt32.size) (shortTags : Bool) :
    (ofSource shortTags source).CoversText := by
  have hpieces : (ofSource shortTags source).pieces = (source.text.lex shortTags).pieces :=
    Text.readIn_lex_of_lt hsize
  refine ⟨?_, ?_, ?_⟩
  · rw [hpieces, Text.lex, List.map_map]
    have htexts := Cursor.map_text_place 0 (source.text.lexemes shortTags)
    exact (congrArg List.flatten htexts).trans (source.text.flatten_lexemes shortTags)
  · rw [tokens_ofSource]
    exact Cursor.tokens_tile shortTags source.text hsize
  · rw [tokens_ofSource, hpieces]
    exact Text.inText_tokens hsize

end TokenReport

section Printed

variable {f : Flags} {r : TokenReport}

theorem Flags.stdout_printTokens_of_plain (hsize : r.source.text.size < UInt32.size)
    (hplain : f.json = false) :
    (f.printTokens r).stdout = Text.endLines (r.pieces.map (·.line)) := by
  obtain ⟨texts, htexts⟩ := exists_forall₂ (l := if f.noDiags then [] else r.diagnostics)
    fun d _ => Diagnostic.exists_rendered hsize d
  rw [printTokens, hplain, Source.printDiagnostics_plain htexts]
  simp [Outcome.andThen, Outcome.faultCode]

/-- The values that are printed of a report. -/
theorem Flags.exists_stdout_printTokens (hsize : r.source.text.size < UInt32.size)
    (hjson : f.json = true) :
    ∃ items : List Json, (f.printTokens r).stdout =
        Text.endLines ((r.pieces.map (·.json) ++ items).map (·.compact)) ∧
      List.Forall₂ (fun d v => r.source.diagnosticJson d = .ok v)
        (if f.noDiags then [] else r.diagnostics) items := by
  obtain ⟨items, hitems⟩ := exists_forall₂ (l := if f.noDiags then [] else r.diagnostics)
    fun d _ => Source.exists_diagnosticJson hsize d
  refine ⟨items, ?_, hitems⟩
  rw [printTokens, hjson, Source.printDiagnostics_json hitems]
  simp [Outcome.andThen, Outcome.faultCode, Text.endLines_append, Function.comp_def]

end Printed

/-- A file that is named like no flag and no option can be asked for with any flags. Whatever is
printed of the tokens of a file that can be read and is not too long gives them back: in lines of
three fields, one for each token, or in as many values in front of those for the diagnostics. The
tokens that are given back cover the text of the file. -/
theorem listing_gives_back_tokens (fs : FileSystem) {path : Text} {bytes : List UInt8}
    (h : fs path = .file bytes)
    (hsize : (Text.decode bytes).unifyLineEndings.size < UInt32.size) (shortTags : Bool) :
    (path ∉ Flags.words → ¬ "--".toList <+: path → ∀ ws ⊆ Flags.words,
      Accepted fs ("tokens".toList :: (ws ++ [path])) ⟨.tokens, .ofWords ws, path⟩ bytes) ∧
    ∃ report, TokenReport.ofFile shortTags fs path = .ok report ∧
      report.source.text = (Text.decode bytes).unifyLineEndings ∧ report.CoversText ∧
      ∀ args flags clock, Accepted fs args ⟨.tokens, flags, path⟩ bytes →
        flags.shortTags = shortTags →
        (flags.json = false → ∃ ls, (run fs args clock).stdout.lines = ls ++ [[]] ∧
          List.Forall₂ (fun p l => l.fields = [p.kind.name, p.span.printed, p.text.visible])
            report.pieces ls ∧
          ls.map Token.ofLine? = report.tokens.map some) ∧
        (flags.json = true → ∃ ls rest vs, (run fs args clock).stdout.lines = ls ++ rest ++ [[]] ∧
          (∀ ws : List Json, ls = ws.map (·.compact) ↔ ws = vs) ∧
          vs.map Piece.ofJson? = report.pieces.map some ∧
          (flags.noDiags = true → rest = []) ∧
          (flags.noDiags = false → ∃ items : List Json, rest = items.map (·.compact) ∧
            List.Forall₂ (fun d item => ∃ ls, report.source.Tells d ls item)
              report.diagnostics items)) := by
  let report := TokenReport.ofText shortTags path (Text.decode bytes)
  refine ⟨fun hflag hdashes ws hws => accepted_of_path .tokens hflag hdashes hws h, report,
    TokenReport.ofFile_of_file shortTags h, rfl, TokenReport.coversText hsize _, ?_⟩
  intro args flags clock haccepted hshort
  have hrun : run fs args clock = flags.printTokens report := by
    rw [haccepted.run_eq, Invocation.report, hshort]
    rfl
  rw [hrun]
  constructor
  · intro hplain
    have hlines : ∀ l ∈ report.pieces.map (·.line), '\n' ∉ l :=
      List.forall_mem_map.2 fun p _ => p.lf_notMem_line
    refine ⟨report.pieces.map (·.line), ?_, ?_, ?_⟩
    · rw [Flags.stdout_printTokens_of_plain hsize hplain, Text.lines_endLines hlines]
    · exact List.forall₂_map_right_iff.2 (List.forall₂_same.2 fun p _ => p.fields_line)
    · rw [TokenReport.tokens, List.map_map, List.map_map]
      refine List.map_congr_left fun p _ => ?_
      rw [Function.comp_apply, Function.comp_apply, Token.ofLine?_line]
  · intro hjson
    let values : List Json := report.pieces.map (·.json)
    obtain ⟨items, hstdout, hitems⟩ := Flags.exists_stdout_printTokens (r := report) hsize hjson
    have hlines : ∀ l ∈ (values ++ items).map (·.compact), '\n' ∉ l :=
      List.forall_mem_map.2 fun v _ => v.lf_notMem_compact
    have hinjective : Function.Injective (List.map Json.compact) :=
      List.map_injective_iff.2 fun _ _ => Json.compact_injective
    refine ⟨values.map (·.compact), items.map (·.compact), values, ?_, fun ws => ?_, ?_,
      fun hnone => ?_, fun hall => ⟨items, rfl, ?_⟩⟩
    · rw [hstdout, Text.lines_endLines hlines, List.map_append]
    · exact hinjective.eq_iff.trans eq_comm
    · rw [List.map_map]
      refine List.map_congr_left fun p _ => ?_
      rw [Function.comp_apply, p.ofJson?_json]
    · rw [hnone] at hitems
      cases hitems
      rfl
    · rw [hall] at hitems
      exact hitems.imp fun d item hitem => Source.exists_tells hsize hitem

/-- A comment of two lines, which has a tab in it as well. -/
theorem listing_gives_back_tokens_block :
    let path := "a.php".toList
    let bytes := [60, 63, 112, 104, 112, 10, 47, 42, 9, 10, 42, 47]
    let fs : FileSystem := fun p => if p = path then .file bytes else .directory
    let tokens : List Token := [⟨.openTag, ⟨0, 6⟩⟩, ⟨.comment, ⟨6, 12⟩⟩]
    fs path = .file bytes ∧ (Text.decode bytes).unifyLineEndings.size < UInt32.size ∧
      (∃ ls, (run fs ["tokens".toList, path]).stdout.lines = ls ++ [[]] ∧
        ls.map Token.ofLine? = tokens.map some) ∧
      ∃ (ls : List Text) (vs : List Json) (pieces : List Piece),
        (run fs ["tokens".toList, "json".toList, path]).stdout.lines = ls ++ [[]] ∧
        ls = vs.map (·.compact) ∧ vs.map Piece.ofJson? = pieces.map some ∧
        pieces.map (·.token) = tokens ∧
        (pieces.map (·.text)).flatten = "<?php\n/*\t\n*/".toList := by
  intro path bytes fs tokens
  have hfound : fs path = .file bytes := rfl
  have hsize : (Text.decode bytes).unifyLineEndings.size < UInt32.size := by decide
  obtain ⟨haccepts, report, hread, htext, hcovers, hruns⟩ :=
    listing_gives_back_tokens fs hfound hsize false
  have hreport : (TokenReport.ofFile false fs path).toOption.map
      (fun r => (r.tokens, r.diagnostics)) = some (tokens, []) := by decide +kernel
  rw [hread] at hreport
  obtain ⟨htokens, hdiagnostics⟩ := Prod.mk.inj (Option.some.inj hreport)
  have hplain := haccepts (by decide) (by decide) [] (by simp)
  have hjson := haccepts (by decide) (by decide) ["json".toList] (by decide)
  obtain ⟨ls, hlines, -, hback⟩ := (hruns _ _ .masked hplain rfl).1 rfl
  obtain ⟨ls', rest, vs, hlines', hvalues, hback', -, hrest⟩ := (hruns _ _ .masked hjson rfl).2 rfl
  obtain ⟨items, rfl, htells⟩ := hrest rfl
  rw [hdiagnostics] at htells
  cases htells
  refine ⟨hfound, hsize, ⟨ls, hlines, ?_⟩, ls', vs, report.pieces, ?_, (hvalues vs).2 rfl, hback',
    htokens, ?_⟩
  · rw [hback, htokens]
  · simpa using hlines'
  · rw [hcovers.texts, htext]
    decide

/-- What is read at the offsets of one import behind 2 ^ 32 blanks are the first twelve of them. -/
theorem TokenReport.texts_of_wrapped (name : Text) {blanks r : Text}
    (hfirst : blanks = "             ".toList ++ r) (hblank : ∀ c ∈ blanks, c = ' ')
    (hsize : blanks.size = 4294967296) :
    ((ofSource false ⟨name, blanks ++ "<?php use A;".toList⟩).pieces.map (·.text)).flatten =
      "            ".toList := by
  have htexts : (ofSource false ⟨name, blanks ++ "<?php use A;".toList⟩).pieces.map (·.text) =
      [[], "      ".toList, "   ".toList, " ".toList, " ".toList, " ".toList] := by
    rw [ofSource_eq]
    simp only [Text.tokens_lex_wrapped hfirst hblank hsize]
    rw [hfirst]
    rfl
  rw [htexts]
  rfl

/-- A file that is named like a flag, and one import behind 2 ^ 32 blanks, all of which are one
token with an empty span. -/
theorem not_listing_gives_back_tokens :
    (let fs : FileSystem := fun _ => .file (Text.bytes "<?php ".toList)
     let report := TokenReport.ofFile false fs "json".toList
     report.toOption.map (·.tokens) = some [⟨.openTag, ⟨0, 6⟩⟩] ∧
      (run fs ["tokens".toList, "json".toList]).stdout = []) ∧
    let fs : FileSystem := fun _ =>
      .file (Text.bytes (List.replicate 4294967296 ' ' ++ "<?php use A;".toList))
    ∃ report, TokenReport.ofFile false fs "a.php".toList = .ok report ∧
      ¬ Cursor.Tiles report.source.text 0 report.tokens ∧
      (report.pieces.map (·.text)).flatten ≠ report.source.text := by
  refine ⟨by decide +kernel, ?_⟩
  intro fs
  obtain ⟨hfirst, hsize⟩ := Text.blanks_wrapped
  have hread : Source.read fs "a.php".toList = .ok ⟨"a.php".toList, _⟩ := Source.read_wrapped rfl
  have htokens := Text.tokens_lex_wrapped hfirst (fun _ => List.eq_of_mem_replicate) hsize
  have hprinted := TokenReport.texts_of_wrapped "a.php".toList hfirst
    (fun _ => List.eq_of_mem_replicate) hsize
  refine ⟨_, by rw [TokenReport.ofFile, hread]; rfl, fun htiles => ?_, fun htexts => ?_⟩
  · rw [TokenReport.tokens_ofSource, htokens] at htiles
    cases htiles.isEmpty_span List.mem_cons_self
  · have hsizes := congrArg Text.size (hprinted.symm.trans htexts)
    have htwelve : Text.size "            ".toList = 12 := rfl
    have hcode : Text.size "<?php use A;".toList = 12 := rfl
    simp only [TokenReport.ofSource, Text.size_append, hsize, htwelve, hcode] at hsizes
    omega

end PhpImports

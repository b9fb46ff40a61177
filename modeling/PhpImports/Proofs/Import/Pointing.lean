import PhpImports.Proofs.Cursor.Lexing
import PhpImports.Proofs.Import.Extent
import PhpImports.Proofs.Lexeme.Fault
import PhpImports.Proofs.Report.LineEnding

/-!
# Where the report on a text points

The tokens of a text stand in order and tile it, so whatever is reported of it points into it, from
character boundary to character boundary; a warning on an import points exactly at the name parts
that the import was read from (`report_points_into_text`). A statement is only reported for what
stands behind the word that starts it, unless that word is the last of the text: then no place is
known, and the warning that the statement has no end points at the start of the text
(`points_behind_word_iff`).
-/

namespace PhpImports

namespace Span

/-- The span is in order and inside the text, and it starts and ends between characters. -/
structure LiesIn (source : Text) (s : Span) : Prop where
  ordered : s.start ≤ s.stop
  inside : s.stop.toNat ≤ source.size
  startsAt : ∃ r, Cursor.At source s.start.toNat r
  stopsAt : ∃ r, Cursor.At source s.stop.toNat r

variable {source : Text} {a b : Span}

theorem liesIn_zero (source : Text) : zero.LiesIn source where
  ordered := UInt32.le_refl 0
  inside := Nat.zero_le _
  startsAt := ⟨source, [], rfl, rfl⟩
  stopsAt := ⟨source, [], rfl, rfl⟩

theorem LiesIn.atStop (h : a.LiesIn source) : a.atStop.LiesIn source where
  ordered := UInt32.le_refl a.stop
  inside := h.inside
  startsAt := h.stopsAt
  stopsAt := h.stopsAt

theorem start_merge (a b : Span) :
    (a.merge b).start = a.start ∧ a.start ≤ b.start ∨
      (a.merge b).start = b.start ∧ b.start ≤ a.start := by
  rcases UInt32.le_total a.start b.start with h | h
  · exact Or.inl ⟨if_pos h, h⟩
  · refine Or.inr ⟨?_, h⟩
    by_cases hle : a.start ≤ b.start
    · exact (if_pos hle).trans (UInt32.le_antisymm hle h)
    · exact if_neg hle

theorem stop_merge (a b : Span) :
    (a.merge b).stop = b.stop ∧ a.stop ≤ b.stop ∨
      (a.merge b).stop = a.stop ∧ b.stop ≤ a.stop := by
  rcases UInt32.le_total a.stop b.stop with h | h
  · exact Or.inl ⟨if_pos h, h⟩
  · refine Or.inr ⟨?_, h⟩
    by_cases hle : a.stop ≤ b.stop
    · exact (if_pos hle).trans (UInt32.le_antisymm h hle)
    · exact if_neg hle

theorem LiesIn.merge (ha : a.LiesIn source) (hb : b.LiesIn source) : (a.merge b).LiesIn source := by
  have hstart : (a.merge b).start ≤ a.start := by
    rcases start_merge a b with ⟨h, -⟩ | ⟨h, hle⟩
    · exact h ▸ UInt32.le_refl _
    · exact h ▸ hle
  have hstop : a.stop ≤ (a.merge b).stop := by
    rcases stop_merge a b with ⟨h, hle⟩ | ⟨h, -⟩
    · exact h ▸ hle
    · exact h ▸ UInt32.le_refl _
  refine ⟨UInt32.le_trans hstart (UInt32.le_trans ha.ordered hstop), ?_, ?_, ?_⟩
  · rcases stop_merge a b with ⟨h, -⟩ | ⟨h, -⟩
    · exact h ▸ hb.inside
    · exact h ▸ ha.inside
  · rcases start_merge a b with ⟨h, -⟩ | ⟨h, -⟩
    · exact h ▸ ha.startsAt
    · exact h ▸ hb.startsAt
  · rcases stop_merge a b with ⟨h, -⟩ | ⟨h, -⟩
    · exact h ▸ hb.stopsAt
    · exact h ▸ ha.stopsAt

end Span

variable {shortTags : Bool} {t : Text}

theorem liesIn_of_mem_lex (ht : t.size < UInt32.size) {p : Piece}
    (hp : p ∈ (t.lex shortTags).pieces) : p.span.LiesIn t := by
  have htiles := Cursor.tokens_tile shortTags t ht
  have htoken : p.token ∈ (t.lex shortTags).tokens := List.mem_map_of_mem hp
  obtain ⟨hstart, r, a, rfl, hstop⟩ := htiles.boundary _ htoken
  refine ⟨UInt32.le_of_lt (htiles.nonempty _ htoken), ?_, hstart, r, a, rfl, hstop⟩
  rw [show p.span.stop.toNat = a.size from hstop, Text.size_append]
  exact Nat.le_add_right _ _

/-- The tokens of a text stand one behind the other. -/
theorem inOrder_lex (ht : t.size < UInt32.size) : Piece.InOrder (t.lex shortTags).pieces := by
  have htiles := Cursor.tokens_tile shortTags t ht
  refine ⟨fun p hp => htiles.nonempty _ (List.mem_map_of_mem hp), ?_⟩
  have hordered := htiles.ordered
  rwa [Lexing.tokens, List.pairwise_map] at hordered

/-- What is reported of a text, its statements aside, is an error of one of its tokens. -/
theorem exists_of_mem_diagnostics_lex {d : Diagnostic} (h : d ∈ (t.lex shortTags).diagnostics) :
    ∃ p ∈ (t.lex shortTags).pieces, ∃ c : Cause, c.severity = .error ∧ d = c.report p.span := by
  have herror := severity_of_mem_diagnostics_lex h
  obtain ⟨p, hp, hd⟩ := List.mem_filterMap.1 h
  obtain ⟨c, -, rfl⟩ := Option.map_eq_some_iff.1 hd
  exact ⟨p.piece, List.mem_map_of_mem hp, c, herror, rfl⟩

theorem Cause.code_of_error {c : Cause} (h : c.severity = .error) : c.code? ∉ importCodes := by
  cases c with
  | unterminatedBlockComment => decide
  | unterminatedString => decide
  | unterminatedHeredoc label => exact (by decide : some "E0002".toList ∉ importCodes)
  | unexpectedChar c => exact (by decide : some "E0001".toList ∉ importCodes)
  | _ => cases h

/-- In these pieces a statement warns with `d` of an import, which is closed behind `read`. -/
inductive WarnsOfImport (ps : List Piece) (d : Diagnostic) (read : List Piece) : Prop
  | intro {word stop : Piece} {rest : List Piece} {i : ImportClause}
      (statement : word :: (read ++ stop :: rest) <:+ ps) (starts : word.kind = .kwUse)
      (reported : d ∈ (Statement.read (read ++ stop :: rest)).diagnostics)
      (closes : Draft.Closes read stop i) (warns : ∃ c ∈ i.causes, d = c.report i.span)

/-- Whatever is reported of a text points into it, line endings unified. A warning on an import
points at the name parts since the last comma or brace before the import ends, or since the start of
its statement: from the start of the first to the end of the last, which is not nothing. -/
theorem report_points_into_text (ht : t.size < UInt32.size) (shortTags : Bool) (name : Text) :
    let report := ImportReport.ofText shortTags name t
    ∀ d ∈ report.diagnostics,
      d.PointsAll (·.LiesIn t.unifyLineEndings) ∧
      (d.code ∈ importCodes → ∃ read first last,
        WarnsOfImport (skipOpening report.pieces) d read ∧
        (nameParts (lastRun read)).head? = some first ∧
        (nameParts (lastRun read)).getLast? = some last ∧
        d.span = some ⟨first.span.start, last.span.stop⟩ ∧ first.span.start < last.span.stop) := by
  intro report d hd
  have hsize : t.unifyLineEndings.size < UInt32.size :=
    Nat.lt_of_le_of_lt (Text.size_unifyLineEndings_le t) ht
  have hreport : report = _ := ImportReport.ofText_of_lt ht shortTags name
  rw [hreport] at hd ⊢
  rcases List.mem_append.1 hd with hd | hd
  · obtain ⟨p, hp, c, herror, rfl⟩ := exists_of_mem_diagnostics_lex hd
    exact ⟨c.pointsAll_report (liesIn_of_mem_lex hsize hp),
      fun hcode => absurd hcode (Cause.code_of_error herror)⟩
  · obtain ⟨word, rest, hsuffix, hword, hd⟩ := FileImports.exists_of_mem_diagnostics hd
    have hsuffix' : word :: rest <:+ (t.unifyLineEndings.lex shortTags).pieces :=
      hsuffix.trans (List.drop_suffix 1 _)
    have hlies : ∀ p ∈ rest, p.span.LiesIn t.unifyLineEndings := fun p hp =>
      liesIn_of_mem_lex hsize (hsuffix'.subset (List.mem_cons_of_mem word hp))
    constructor
    · refine Statement.pointsAll_read (fun a b => Span.LiesIn.merge) hlies ?_ d hd
      rw [Statement.fileEnd]
      cases hlast : rest.getLast? with
      | none => exact Span.liesIn_zero _
      | some p => exact (hlies p (List.mem_of_getLast? hlast)).atStop
    · intro hcode
      obtain ⟨read, stop, rest, i, rfl, hcloses, hwarns⟩ :=
        Statement.exists_closes_of_warning hd hcode
      have horder : Piece.InOrder read := (inOrder_lex hsize).sublist
        (((List.sublist_append_left read _).trans (List.sublist_cons_self word _)).trans
          hsuffix'.sublist)
      obtain ⟨first, last, hfirst, hlast, hspan, hlt⟩ := hcloses.span_eq horder
      refine ⟨read, first, last, ⟨hsuffix, hword, hd, hcloses, hwarns⟩, hfirst, hlast, ?_, hlt⟩
      obtain ⟨c, -, rfl⟩ := hwarns
      exact congrArg some hspan

/-- Imports that share an alias, that have an empty one, and that end with a separator, behind text
beyond ASCII. -/
theorem report_points_into_text_imports :
    let t : Text := "é<?php use A\\B, \\C as\r\nB, D as, E /**/ \\;".toList
    let report := ImportReport.ofText false "a.php".toList t
    t.size < UInt32.size ∧
      report.diagnostics.map (fun d => (d.code, d.span)) =
        [(some "W0004".toList, some ⟨17, 24⟩), (some "W0003".toList, some ⟨26, 27⟩),
          (some "W0005".toList, some ⟨32, 40⟩)] ∧
      ∀ d ∈ report.diagnostics, d.PointsAll (·.LiesIn t.unifyLineEndings) ∧
        (d.code ∈ importCodes → ∃ read first last,
          WarnsOfImport (skipOpening report.pieces) d read ∧
          (nameParts (lastRun read)).head? = some first ∧
          (nameParts (lastRun read)).getLast? = some last ∧
          d.span = some ⟨first.span.start, last.span.stop⟩ ∧
          first.span.start < last.span.stop) := by
  intro t report
  have hsize : t.size < UInt32.size := by decide
  exact ⟨hsize, by decide +kernel, report_points_into_text hsize false _⟩

/-- Behind the word that starts a statement stands all that the statement is reported for, exactly
if there is anything behind it at all. -/
theorem points_behind_word_iff (ht : t.size < UInt32.size) {name : Text} {word : Piece}
    {rest : List Piece}
    (hstatement : word :: rest <:+ skipOpening (ImportReport.ofText shortTags name t).pieces) :
    word.kind = .kwUse →
      ((∀ d ∈ (Statement.read rest).diagnostics, d.PointsAll fun s => word.span.stop ≤ s.start) ↔
        rest ≠ []) := by
  intro _
  rw [ImportReport.ofText_of_lt ht] at hstatement
  have hsize : t.unifyLineEndings.size < UInt32.size :=
    Nat.lt_of_le_of_lt (Text.size_unifyLineEndings_le t) ht
  have horder : Piece.InOrder (word :: rest) :=
    (inOrder_lex hsize).sublist (hstatement.sublist.trans (List.drop_sublist 1 _))
  have hword := horder.nonempty word List.mem_cons_self
  have hbehind := (List.pairwise_cons.1 horder.ordered).1
  constructor
  · rintro hpoints rfl
    obtain ⟨s, hs, hle⟩ := (hpoints _ List.mem_cons_self).span
    obtain rfl : Span.zero = s := Option.some.inj hs
    exact absurd (UInt32.lt_of_lt_of_le hword hle) UInt32.not_lt_zero
  · intro hne
    refine Statement.pointsAll_read ?_ hbehind ?_
    · intro a b ha hb
      rcases Span.start_merge a b with ⟨h, -⟩ | ⟨h, -⟩
      · exact h ▸ ha
      · exact h ▸ hb
    · have hmem := List.mem_cons_of_mem word (List.getLast_mem hne)
      rw [Statement.fileEnd, List.getLast?_eq_some_getLast hne]
      exact UInt32.le_trans (hbehind _ (List.getLast_mem hne))
        (UInt32.le_of_lt (horder.nonempty _ hmem))

/-- A group in a group, in a statement that nothing ends. -/
theorem points_behind_word_iff_group :
    let t : Text := "<?php use A\\\x7bB\\\x7bC, \\".toList
    let pieces := skipOpening (ImportReport.ofText false "a.php".toList t).pieces
    let word : Piece := ⟨.kwUse, ⟨6, 9⟩, "use".toList⟩
    t.size < UInt32.size ∧ word :: pieces.tail <:+ pieces ∧ word.kind = .kwUse ∧
      (Statement.read pieces.tail).diagnostics.map (fun d => (d.code, d.notes.map (·.span))) =
        [(some "W0002".toList, [⟨12, 13⟩]), (some "W0001".toList, [])] ∧
      ((∀ d ∈ (Statement.read pieces.tail).diagnostics,
          d.PointsAll fun s => word.span.stop ≤ s.start) ↔ pieces.tail ≠ []) := by
  intro t pieces word
  have hsize : t.size < UInt32.size := by decide
  have hstatement : word :: pieces.tail <:+ pieces := by decide +kernel
  exact ⟨hsize, hstatement, rfl, by decide +kernel, points_behind_word_iff hsize hstatement rfl⟩

/-- The word for an import at the end of a text is reported at the start of the text. -/
theorem points_before_last_word :
    ¬ ∀ (word : Piece) (rest : List Piece),
      word :: rest <:+
          skipOpening (ImportReport.ofText false "a.php".toList "<?php use".toList).pieces →
        word.kind = .kwUse → ∀ d ∈ (Statement.read rest).diagnostics,
          d.PointsAll fun s => word.span.stop ≤ s.start := by
  intro hall
  have hpoints := hall ⟨.kwUse, ⟨6, 9⟩, "use".toList⟩ [] (by decide +kernel) rfl _ List.mem_cons_self
  obtain ⟨s, hs, hle⟩ := hpoints.span
  obtain rfl : Span.zero = s := Option.some.inj hs
  exact absurd hle (by decide)

end PhpImports

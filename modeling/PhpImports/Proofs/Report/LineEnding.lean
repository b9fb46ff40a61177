import PhpImports.Proofs.Text.WholeEnding
import PhpImports.Report

/-!
# Line endings in reports

To unify the line endings of a text is to write LF for every CR LF and then for every CR that is
left. So there is no CR in the outcome and one LF for each line break of the text, doing it again
changes nothing, and two texts can be unified apart, but for a CR LF that is split between them.
Reports on texts see nothing but the outcome (`reports_of_unified`).
-/

namespace PhpImports

namespace Text

/-- The text with `new` for every place where `k` stands with `ks` behind it, from the left on. -/
def replaceAll (k : Char) (ks new : Text) : Text → Text
  | [] => []
  | c :: r =>
    if c = k ∧ ks <+: r then new ++ replaceAll k ks new (r.drop ks.length)
    else c :: replaceAll k ks new r
termination_by s => s.length
decreasing_by
  · simp only [List.length_drop, List.length_cons]
    omega
  · exact Nat.lt_succ_self _

/-- A line break starts at `c`, which stands behind `before`: LF does not start one behind CR. -/
def startsLineBreak (before : Option Char) (c : Char) : Bool :=
  c = '\r' || (c = '\n' && before ≠ some '\r')

/-- How many line breaks start in the text, which stands behind `before`. -/
def lineBreaksBehind (before : Option Char) (s : Text) : Nat :=
  ((before :: s.map some).zip s).countP fun p => startsLineBreak p.1 p.2

/-- How many line breaks there are: a CR LF is one, and so is any other CR or LF. -/
def lineBreaks (s : Text) : Nat :=
  s.lineBreaksBehind none

variable {s : Text} {before : Option Char} {new : Text}

theorem replaceAll_single_cons (k c : Char) (s : Text) :
    replaceAll k [] new (c :: s) = (if c = k then new else [c]) ++ replaceAll k [] new s := by
  rw [replaceAll]
  by_cases h : c = k <;> simp [h]

theorem unifyLineEndings_eq_replaceAll (s : Text) :
    s.unifyLineEndings = replaceAll '\r' [] ['\n'] (replaceAll '\r' ['\n'] ['\n'] s) := by
  induction s using crlfInduction with
  | nil => rw [unifyLineEndings_nil, replaceAll, replaceAll]
  | crlf s ih =>
    have hpair : replaceAll '\r' ['\n'] ['\n'] ('\r' :: '\n' :: s) =
        '\n' :: replaceAll '\r' ['\n'] ['\n'] s := by
      rw [replaceAll, if_pos ⟨rfl, s, rfl⟩]
      rfl
    rw [unifyLineEndings_crlf, hpair, replaceAll_single_cons, ih]
    rfl
  | char c s hc ih =>
    have hkept : replaceAll '\r' ['\n'] ['\n'] (c :: s) =
        c :: replaceAll '\r' ['\n'] ['\n'] s := by
      rw [replaceAll, if_neg]
      rintro ⟨hcr, t, rfl⟩
      exact hc hcr rfl
    rw [unifyLineEndings_cons c s hc, hkept, replaceAll_single_cons, ih]
    split <;> rfl

theorem notMem_unifyLineEndings (s : Text) : '\r' ∉ s.unifyLineEndings := by
  induction s using crlfInduction with
  | nil => exact List.not_mem_nil
  | crlf s ih =>
    rw [unifyLineEndings_crlf, List.mem_cons, not_or]
    exact ⟨by decide, ih⟩
  | char c s hc ih =>
    rw [unifyLineEndings_cons c s hc, List.mem_cons, not_or]
    refine ⟨?_, ih⟩
    split
    · decide
    · next hne => exact Ne.symm hne

theorem lineBreaksBehind_cons (before : Option Char) (c : Char) (s : Text) :
    lineBreaksBehind before (c :: s) =
      (startsLineBreak before c).toNat + lineBreaksBehind (some c) s := by
  cases h : startsLineBreak before c <;> simp [lineBreaksBehind, h, Nat.add_comm]

/-- Only a LF asks for what is in front of it. -/
theorem lineBreaksBehind_eq (h : before = some '\r' → s.head? ≠ some '\n') :
    lineBreaksBehind before s = s.lineBreaks := by
  cases s with
  | nil => rfl
  | cons c s =>
    have hstarts : startsLineBreak before c = startsLineBreak none c := by
      by_cases hlf : c = '\n'
      · have hbefore : before ≠ some '\r' := fun hcr => h hcr (congrArg some hlf)
        simp [startsLineBreak, hbefore]
      · simp [startsLineBreak, hlf]
    rw [lineBreaks, lineBreaksBehind_cons, lineBreaksBehind_cons, hstarts]

theorem lineBreaks_cons (c : Char) (s : Text) :
    lineBreaks (c :: s) = (startsLineBreak none c).toNat + lineBreaksBehind (some c) s :=
  lineBreaksBehind_cons none c s

theorem count_unifyLineEndings (s : Text) : s.unifyLineEndings.count '\n' = s.lineBreaks := by
  induction s using crlfInduction with
  | nil => rfl
  | crlf s ih =>
    have hrest : lineBreaksBehind (some '\n') s = s.lineBreaks := lineBreaksBehind_eq (by simp)
    rw [unifyLineEndings_crlf, List.count_cons_self, ih, lineBreaks_cons,
      lineBreaksBehind_cons, hrest]
    simp [startsLineBreak, Nat.add_comm]
  | char c s hc ih =>
    have hrest : lineBreaksBehind (some c) s = s.lineBreaks :=
      lineBreaksBehind_eq fun hcr => hc (Option.some.inj hcr)
    rw [unifyLineEndings_cons c s hc, List.count_cons, ih, lineBreaks_cons, hrest,
      Nat.add_comm]
    congr 1
    by_cases hcr : c = '\r'
    · simp [hcr, startsLineBreak]
    · by_cases hlf : c = '\n' <;> simp [hcr, hlf, startsLineBreak]

end Text

/-- The report on a text, as long as offsets do not wrap around. -/
theorem ImportReport.ofText_of_lt {text : Text} (h : text.size < UInt32.size) (shortTags : Bool)
    (name : Text) :
    ofText shortTags name text =
      let lexing := text.unifyLineEndings.lex shortTags
      let imports := FileImports.ofPieces (skipOpening lexing.pieces)
      ⟨⟨name, text.unifyLineEndings⟩, lexing.pieces, imports.table,
        lexing.diagnostics ++ imports.diagnostics⟩ :=
  ofSource_of_lt (Nat.lt_of_le_of_lt (Text.size_unifyLineEndings_le text) h)

/-- Unified line endings are what replacing CR LF and then CR by LF gives, in a text, in two texts
in a row and in a text that is unified already. Texts that agree in that have the same reports. -/
theorem reports_of_unified (shortTags : Bool) :
    (∀ s : Text,
      s.unifyLineEndings =
        Text.replaceAll '\r' [] ['\n'] (Text.replaceAll '\r' ['\n'] ['\n'] s) ∧
      '\r' ∉ s.unifyLineEndings ∧
      s.unifyLineEndings.unifyLineEndings = s.unifyLineEndings ∧
      ('\r' ∉ s → s.unifyLineEndings = s) ∧
      s.unifyLineEndings.count '\n' = s.lineBreaks) ∧
    (∀ a b : Text, Text.unifyLineEndings (a ++ b) = a.unifyLineEndings ++
      Text.unifyLineEndings
        (if a.getLast? = some '\r' ∧ b.head? = some '\n' then b.tail else b)) ∧
    ∀ name s t : Text, s.unifyLineEndings = t.unifyLineEndings →
      TokenReport.ofText shortTags name s = TokenReport.ofText shortTags name t ∧
      ImportReport.ofText shortTags name s = ImportReport.ofText shortTags name t := by
  refine ⟨fun s => ?_, fun a b => ?_, fun name s t hsame => ?_⟩
  · have hnone := s.notMem_unifyLineEndings
    exact ⟨s.unifyLineEndings_eq_replaceAll, hnone, Text.unifyLineEndings_of_notMem hnone,
      Text.unifyLineEndings_of_notMem, s.count_unifyLineEndings⟩
  · split
    · next hsplit => exact Text.unifyLineEndings_append_split hsplit.1 hsplit.2
    · next hwhole =>
      exact Text.unifyLineEndings_append_of_seam fun hcr hlf => hwhole ⟨hcr, hlf⟩
  · have hsource : Source.ofText name s = Source.ofText name t := by
      rw [Source.ofText, Source.ofText, hsame]
    rw [TokenReport.ofText, TokenReport.ofText, ImportReport.ofText, ImportReport.ofText, hsource]
    exact ⟨rfl, rfl⟩

/-- Runs of CR in front of LF, which other line endings spell as well. -/
theorem reports_of_unified_runs :
    let s : Text := "<?php\r\r\nuse A;\r".toList
    let t : Text := "<?php\n\nuse A;\n".toList
    s.lineBreaks = 3 ∧ '\r' ∉ t ∧ s.unifyLineEndings = t.unifyLineEndings ∧
      t.unifyLineEndings = t ∧
      ImportReport.ofText false "a.php".toList s = ImportReport.ofText false "a.php".toList t := by
  intro s t
  obtain ⟨hlaws, -, hreports⟩ := reports_of_unified false
  have hnone : '\r' ∉ t := by decide
  have hsame : s.unifyLineEndings = t.unifyLineEndings := by decide
  exact ⟨by decide, hnone, hsame, (hlaws t).2.2.2.1 hnone, (hreports "a.php".toList s t hsame).2⟩

end PhpImports

import PhpImports.Command.Run
import PhpImports.Proofs.Command.Clock
import PhpImports.Proofs.Diagnostic.Render

/-!
# Printing without faults

In a source of fewer than 2 ^ 32 bytes every place is found, so each diagnostic is printed, as JSON
or as it is rendered, and the exit code is not that of a fault. Whether a run meets a fault does not
depend on its clock, and only the times that are printed do.
-/

namespace PhpImports

theorem Text.endLines_append (ls ls' : List Text) :
    endLines (ls ++ ls') = endLines ls ++ endLines ls' :=
  List.flatMap_append

namespace Outcome

variable {a b : Outcome}

theorem andThen_of_ne (h : a.exitCode ≠ faultCode) :
    a.andThen b = ⟨b.exitCode, a.stdout ++ b.stdout, a.stderr ++ b.stderr⟩ :=
  if_neg h

theorem faulted_andThen (b : Outcome) : faulted.andThen b = faulted :=
  if_pos rfl

/-- A run that is not refused is not so behind another. -/
theorem exitCode_andThen_ne (h : b.exitCode ≠ 2) : (a.andThen b).exitCode ≠ 2 := by
  rw [andThen]
  split
  · next hfault =>
    rw [hfault]
    decide
  · exact h

/-- Behind a run that ends well the exit code is that of the second. -/
theorem exitCode_andThen_of_zero (h : a.exitCode = 0) : (a.andThen b).exitCode = b.exitCode := by
  have hne : a.exitCode ≠ faultCode := by
    rw [h]
    decide
  rw [andThen_of_ne hne]

end Outcome

namespace Source

variable {source : Source}

theorem exists_spanJson (hsize : source.text.size < UInt32.size) (span : Span) :
    ∃ v, source.spanJson span = .ok v := by
  obtain ⟨a, r, -, -, hlineCol, -⟩ := exists_lookup hsize span.start
  exact ⟨_, by rw [spanJson, hlineCol]; rfl⟩

theorem exists_noteJson (hsize : source.text.size < UInt32.size) (note : Note) :
    ∃ v, source.noteJson note = .ok v := by
  obtain ⟨v, hv⟩ := exists_spanJson hsize note.span
  exact ⟨_, by rw [noteJson, hv]; rfl⟩

theorem exists_spanJson? (hsize : source.text.size < UInt32.size) (span? : Option Span) :
    ∃ v, source.spanJson? span? = .ok v := by
  cases span? with
  | none => exact ⟨_, rfl⟩
  | some span => exact exists_spanJson hsize span

theorem exists_diagnosticJson (hsize : source.text.size < UInt32.size) (d : Diagnostic) :
    ∃ v, source.diagnosticJson d = .ok v := by
  obtain ⟨labels, hlabels⟩ :=
    exists_forall₂ (l := d.notes) fun note _ => exists_noteJson hsize note
  obtain ⟨span, hspan⟩ := exists_spanJson? hsize d.span
  exact ⟨_, by rw [diagnosticJson, mapM_eq_ok_iff.2 hlabels, hspan]; rfl⟩

end Source

theorem Diagnostic.exists_rendered {source : Source} (hsize : source.text.size < UInt32.size)
    (d : Diagnostic) : ∃ text, d.rendered source = .ok text := by
  obtain ⟨place, spanLines, notes, h⟩ := d.notice.exists_rendered hsize
  exact ⟨_, by rw [rendered, Notice.render, h.renderLines_eq]; rfl⟩

namespace Source

variable {source : Source} {ds : List Diagnostic}

/-- Diagnostics that are all printed as JSON. -/
theorem printDiagnostics_json {vs : List Json}
    (h : List.Forall₂ (fun d v => source.diagnosticJson d = .ok v) ds vs) :
    source.printDiagnostics true ds = { stdout := Text.endLines (vs.map (·.compact)) } := by
  induction h with
  | nil => rfl
  | @cons d v ds vs hd _ ih =>
    have hcons : source.printDiagnostics true (d :: ds) =
        (source.printDiagnostic true d).andThen (source.printDiagnostics true ds) := rfl
    rw [hcons, ih, printDiagnostic, if_pos rfl, hd]
    simp [Outcome.ofResult, Outcome.andThen, Outcome.faultCode, Text.endLines]

/-- Diagnostics that are all printed as they are rendered. -/
theorem printDiagnostics_plain {texts : List Text}
    (h : List.Forall₂ (fun d text => Diagnostic.rendered d source = .ok text) ds texts) :
    source.printDiagnostics false ds = { stderr := Text.endLines texts } := by
  induction h with
  | nil => rfl
  | @cons d text ds texts hd _ ih =>
    have hcons : source.printDiagnostics false (d :: ds) =
        (source.printDiagnostic false d).andThen (source.printDiagnostics false ds) := rfl
    rw [hcons, ih, printDiagnostic, if_neg (by decide), hd]
    simp [Outcome.ofResult, Outcome.andThen, Outcome.faultCode, Text.endLines]

theorem exitCode_printDiagnostics (hsize : source.text.size < UInt32.size) (json : Bool)
    (ds : List Diagnostic) : (source.printDiagnostics json ds).exitCode = 0 := by
  cases json with
  | true =>
    obtain ⟨vs, hvs⟩ := exists_forall₂ (l := ds) fun d _ => exists_diagnosticJson hsize d
    rw [printDiagnostics_json hvs]
  | false =>
    obtain ⟨texts, htexts⟩ :=
      exists_forall₂ (l := ds) fun d _ => Diagnostic.exists_rendered hsize d
    rw [printDiagnostics_plain htexts]

/-- Whatever the size of the source, printing does not end with the code of a refused run. -/
theorem exitCode_printDiagnostics_ne (source : Source) (json : Bool) (ds : List Diagnostic) :
    (source.printDiagnostics json ds).exitCode ≠ 2 := by
  induction ds with
  | nil => exact (by decide : (0 : UInt32) ≠ 2)
  | cons d ds ih => exact Outcome.exitCode_andThen_ne ih

end Source

namespace ImportReport

variable (r : ImportReport) (diagnostics timing : Bool)

/-- The fields in front of the times are a matter of the diagnostics, which can be at fault. -/
theorem json_cases :
    (∀ clock, ∃ e, r.json diagnostics timing clock = .error e) ∨
      ∃ items : List Json,
        List.Forall₂ (fun d v => r.source.diagnosticJson d = .ok v)
          (if diagnostics then r.diagnostics else []) items ∧
        ∀ clock, r.json diagnostics timing clock = .ok (.obj
          ([("diagnostics".toList, .arr items), ("file".toList, .str r.source.name)] ++
            (if timing then [("timing".toList, clock.json)] else []) ++
            [("uses".toList, r.table.json)])) := by
  cases h : (if diagnostics then r.diagnostics else []).mapM r.source.diagnosticJson with
  | error e => exact Or.inl fun clock => ⟨e, by rw [json, h]; rfl⟩
  | ok items =>
    exact Or.inr ⟨items, mapM_eq_ok_iff.1 h, fun clock => by rw [json, h]; rfl⟩

variable {r}

theorem exists_json (hsize : r.source.text.size < UInt32.size) :
    ∃ items : List Json,
      List.Forall₂ (fun d v => r.source.diagnosticJson d = .ok v)
        (if diagnostics then r.diagnostics else []) items ∧
      ∀ clock, r.json diagnostics timing clock = .ok (.obj
        ([("diagnostics".toList, .arr items), ("file".toList, .str r.source.name)] ++
          (if timing then [("timing".toList, clock.json)] else []) ++
          [("uses".toList, r.table.json)])) := by
  obtain ⟨items, hitems⟩ := exists_forall₂ (l := if diagnostics then r.diagnostics else [])
    fun d _ => Source.exists_diagnosticJson hsize d
  exact ⟨items, hitems, fun clock => by rw [json, mapM_eq_ok_iff.2 hitems]; rfl⟩

end ImportReport

/-- A field of an object, with what is printed around its value. -/
theorem Json.exists_around (first last : List (Text × Json)) (key : Text) :
    ∃ before behind, ∀ v : Json, (Json.obj (first ++ [(key, v)] ++ last)).compact =
      before ++ (quote key ++ ':' :: v.compact) ++ behind := by
  have hlast : ∃ behind, ∀ v : Json, compactFields ((key, v) :: last) =
      (quote key ++ ':' :: v.compact) ++ behind := by
    cases last with
    | nil => exact ⟨[], fun v => by simp [compactFields]⟩
    | cons e last => exact ⟨',' :: compactFields (e :: last), fun v => by simp [compactFields]⟩
  have hfields : ∃ before behind, ∀ v : Json, compactFields (first ++ (key, v) :: last) =
      before ++ (quote key ++ ':' :: v.compact) ++ behind := by
    induction first with
    | nil =>
      obtain ⟨behind, h⟩ := hlast
      exact ⟨[], behind, h⟩
    | cons e first ih =>
      obtain ⟨before, behind, h⟩ := ih
      refine ⟨quote e.1 ++ ':' :: e.2.compact ++ ',' :: before, behind, fun v => ?_⟩
      obtain ⟨f, fs, hcons⟩ := List.exists_cons_of_ne_nil
        (show first ++ (key, v) :: last ≠ [] by simp)
      have hrest := h v
      rw [hcons] at hrest
      rw [List.cons_append, hcons, compactFields, hrest]
      · simp
      · exact List.cons_ne_nil f fs
  obtain ⟨before, behind, h⟩ := hfields
  refine ⟨'{' :: before, behind ++ ['}'], fun v => ?_⟩
  rw [List.append_assoc, List.singleton_append, compact, h]
  simp

/-- What two clocks can change of an outcome. -/
structure Outcome.SameButTimes (a b : Outcome) : Prop where
  exitCode : a.exitCode = b.exitCode
  stdout : PhpImports.SameButTimes a.stdout b.stdout
  stderr : PhpImports.SameButTimes a.stderr b.stderr

theorem Outcome.SameButTimes.refl (a : Outcome) : a.SameButTimes a :=
  ⟨rfl, .same a.stdout, .same a.stderr⟩

namespace Flags

variable (f : Flags) (clock clock' : Clock) (r : ImportReport)

theorem printUses_of_json (hjson : f.json = true) :
    f.printUses clock r = .ofResult (fun v => { stdout := Text.endLines [v.compact] })
      (r.json (!f.noDiags) f.timing clock) :=
  if_pos hjson

theorem printUses_of_plain (hplain : f.json = false) :
    f.printUses clock r =
      ({ stdout := Text.endLines r.table.lines : Outcome }.andThen
        (r.source.printDiagnostics false (if f.noDiags then [] else r.diagnostics))).andThen
        { stderr := Text.endLines (if f.timing then [clock.line] else []) } := by
  rw [printUses, if_neg (by simp [hplain])]

/-- Without the times nothing depends on the clock. -/
theorem printUses_of_untimed (htiming : f.timing = false) :
    f.printUses clock r = f.printUses clock' r := by
  have hvalue : r.json (!f.noDiags) f.timing clock = r.json (!f.noDiags) f.timing clock' := by
    simp only [ImportReport.json, htiming, Bool.false_eq_true, if_false]
  cases hjson : f.json with
  | true => rw [f.printUses_of_json clock r hjson, f.printUses_of_json clock' r hjson, hvalue]
  | false =>
    simp only [f.printUses_of_plain _ r hjson, htiming, Bool.false_eq_true, if_false]

/-- In JSON the times are in the object on standard output. -/
theorem sameButTimes_json (hjson : f.json = true) (htiming : f.timing = true) :
    (f.printUses clock r).SameButTimes (f.printUses clock' r) := by
  rw [f.printUses_of_json clock r hjson, f.printUses_of_json clock' r hjson, htiming]
  rcases r.json_cases (!f.noDiags) true with hfault | ⟨items, -, hvalue⟩
  · obtain ⟨e, he⟩ := hfault clock
    obtain ⟨e', he'⟩ := hfault clock'
    rw [he, he']
    exact .refl .faulted
  · obtain ⟨before, behind, haround⟩ := Json.exists_around
      [("diagnostics".toList, .arr items), ("file".toList, .str r.source.name)]
      [("uses".toList, r.table.json)] "timing".toList
    have hstdout (clock : Clock) : Text.endLines [(Json.obj
        ([("diagnostics".toList, .arr items), ("file".toList, .str r.source.name)] ++
          [("timing".toList, clock.json)] ++ [("uses".toList, r.table.json)])).compact] =
        before ++ (Json.quote "timing".toList ++ ':' :: clock.json.compact) ++
          (behind ++ ['\n']) := by
      rw [haround clock.json, Text.endLines, List.flatMap_singleton, List.append_assoc]
    rw [hvalue clock, hvalue clock']
    refine ⟨rfl, ?_, .same []⟩
    simp only [Outcome.ofResult, if_true, hstdout]
    exact clock.sameButTimes_json clock' before (behind ++ ['\n'])

/-- On lines for reading the times are the last one of standard error, if there is no fault before
that. -/
theorem sameButTimes_plain (hplain : f.json = false) (htiming : f.timing = true) :
    (f.printUses clock r).SameButTimes (f.printUses clock' r) ∧
      (f.printUses clock r).stdout = (f.printUses clock' r).stdout := by
  rw [f.printUses_of_plain clock r hplain, f.printUses_of_plain clock' r hplain, htiming]
  generalize { stdout := Text.endLines r.table.lines : Outcome }.andThen
    (r.source.printDiagnostics false (if f.noDiags then [] else r.diagnostics)) = printed
  by_cases hfault : printed.exitCode = Outcome.faultCode
  · have hstop (b : Outcome) : printed.andThen b = printed := if_pos hfault
    rw [hstop, hstop]
    exact ⟨.refl printed, rfl⟩
  · have htimes := clock.sameButTimes_line clock' printed.stderr ['\n']
    rw [Outcome.andThen_of_ne hfault, Outcome.andThen_of_ne hfault]
    refine ⟨⟨rfl, .same _, ?_⟩, rfl⟩
    simpa only [if_true, Text.endLines, List.flatMap_singleton, ← List.append_assoc] using htimes

/-- What is printed of imports under two clocks. -/
theorem sameButTimes_printUses :
    (f.printUses clock r).SameButTimes (f.printUses clock' r) ∧
      (f.json = false ∨ f.timing = false →
        (f.printUses clock r).stdout = (f.printUses clock' r).stdout) := by
  cases htiming : f.timing with
  | false =>
    rw [f.printUses_of_untimed clock clock' r htiming]
    exact ⟨.refl _, fun _ => rfl⟩
  | true =>
    cases hjson : f.json with
    | true => exact ⟨f.sameButTimes_json clock clock' r hjson htiming, by simp⟩
    | false =>
      obtain ⟨hsame, hstdout⟩ := f.sameButTimes_plain clock clock' r hjson htiming
      exact ⟨hsame, fun _ => hstdout⟩

end Flags
end PhpImports
